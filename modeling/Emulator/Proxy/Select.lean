import Emulator.Proxy.Rewriter

/-!
# What a rewriter connection waits for (`rewrite_connection_select`)

Outside of the BODY states a connection always waits for a socket. In a BODY state it waits
for the source of the body as long as the body is not closed and the buffer is not full, and
for its destination as long as the buffer has data (`BodyInv.waits`).

* `pollBody_inv`: a poll in a BODY state keeps this, unless it is one of those of `EndsEmpty`:
  the end of the body is noticed with an empty buffer, or the buffer is filled by a line that
  does not count as data. The way out of the BODY state is in `rewrite_connection_send_body`
  only, behind the test for data.
* `select_run`: a connection that meets no such poll is never left without a socket.
-/

namespace Emulator.Proxy

open List

namespace RewriteConnection

/-! ## The sockets -/

/-- A socket that is waited for, to be read or to be written. The descriptors are those of open
sockets: `root->socket` is the one to the proxy server, and `slirp_fd` is there from
`rewrite_connection_create_sockets` on. -/
inductive Wait
  | read (fd : Fd)
  | write (fd : Fd)
  deriving DecidableEq, Repr

/-- `rewrite_connection_select`. -/
def select (conn : RewriteConnection) : List Wait :=
  match conn.state with
  | .connecting => [.write .proxy]
  | .createSocketPair => [.write .proxy]
  | .requestFirstLine => [.read .slirp]
  | .requestHeaders => [.read .slirp]
  | .requestSend => [.write .proxy]
  | .requestBody =>
    (if !conn.bodyIsClosed && !conn.bodyIsFull then [.read .slirp] else []) ++
      if conn.bodyHasData then [.write .proxy] else []
  | .replyFirstLine => [.read .proxy]
  | .replyHeaders => [.read .proxy]
  | .replySend => [.write .slirp]
  | .replyBody =>
    (if conn.bodyHasData then [.write .slirp] else []) ++
      if !conn.bodyIsClosed && !conn.bodyIsFull then [.read .proxy] else []

/-- The states in which a body is passed on. -/
def InBody (conn : RewriteConnection) : Prop := conn.state = .requestBody ∨ conn.state = .replyBody

instance (conn : RewriteConnection) : Decidable conn.InBody := inferInstanceAs (Decidable (_ ∨ _))

/-- There is something to wait for in a BODY state. -/
def Waits (conn : RewriteConnection) : Prop :=
  conn.bodyHasData = true ∨ conn.bodyIsClosed = false ∧ conn.bodyIsFull = false

theorem select_ne_nil {conn : RewriteConnection} (h : conn.InBody → conn.Waits) : conn.select ≠ [] := by
  unfold select
  cases hstate : conn.state with
  | requestBody =>
    rcases h (.inl hstate) with h | h
    · simp [h]
    · simp [h.1, h.2]
  | replyBody =>
    rcases h (.inr hstate) with h | h
    · simp [h]
    · simp [h.1, h.2]
  | _ => simp

/-! ## The end of a body, and an empty buffer -/

/-- The lines that are read, behind the buffer, end with an empty one. -/
def LinesEnd (request : Option HttpRequest) (root : ProxyConnection) (fd : Fd) (answers : List RecvAnswer) : Prop :=
  (({ root := root, request := request } : RewriteConnection).readHeaders fd answers).1 = .completed

/-- A line that is taken for a chunk header, with its number. -/
def ChunkLine (line : List UInt8) (length : ℤ) : Prop :=
  (strtoll 16 line).1 = length ∧ 0 ≤ length ∧ line.head? ≠ some 32 ∧
    ((strtoll 16 line).2 = [] ∨ (strtoll 16 line).2.head? = some 59)

/-- The answers to the poll end the body, or fill the buffer with a line, while there is no
data in it.

* A body up to the end of the connection: the first answer is that there is no more.
* A chunked body: the lines behind the last chunk are complete, or the line in front of a
  chunk fills the buffer. -/
def EndsEmpty (conn : RewriteConnection) (fd : Fd) (answers : List RecvAnswer) : Prop :=
  conn.bodyIsClosed = false ∧ conn.bodyHasData = false ∧
    match conn.bodyMode with
    | .none => False
    | .knownLength => False
    | .untilClose => answers.head? = some .error ∨ answers.head? = some (.bytes [])
    | .chunked =>
      if conn.chunkLength = 0 then LinesEnd conn.request conn.root fd answers
      else if 0 < conn.chunkLength then MAX_BODY_BUFFER ≤ conn.root.str.length
      else
        match conn.root.receiveLine fd answers with
        | (.completed, root, rest) =>
          ChunkLine (cstr root.str) 0 ∧ LinesEnd conn.request root fd rest ∨
            (∃ length, 0 < length ∧ ChunkLine (cstr root.str) length) ∧ MAX_BODY_BUFFER ≤ root.str.length
        | (_, root, _) => MAX_BODY_BUFFER ≤ root.str.length

/-- A body that is passed on. -/
structure BodyInv (conn : RewriteConnection) : Prop where
  waits : conn.Waits
  strPos : conn.root.strPos = 0
  data : conn.bodyMode ≠ .chunked → (conn.bodyHasData = true ↔ conn.root.str ≠ [])
  chunked : conn.bodyMode = .chunked → conn.bodyIsClosed = false
  trailer : conn.bodyMode = .chunked → conn.parseChunkTrailer = true → conn.chunkLength = 0 →
    conn.bodyHasData = false

variable {conn : RewriteConnection} {fd : Fd} {answers : List RecvAnswer}

/-- `rewrite_connection_read_headers` changes the buffer and the request only, and looks at
nothing else. -/
theorem readHeadersLoop_eq (fd : Fd) (n : ℕ) (conn : RewriteConnection) (answers : List RecvAnswer) :
    let res := readHeadersLoop fd n { root := conn.root, request := conn.request } answers
    readHeadersLoop fd n conn answers =
      (res.1, { conn with root := res.2.1.root, request := res.2.1.request }, res.2.2) := by
  induction n generalizing conn answers with
  | zero => rfl
  | succ n ih =>
    unfold readHeadersLoop
    dsimp only
    generalize conn.root.receiveLine fd answers = res
    obtain ⟨ret, root, rest⟩ := res
    cases ret with
    | error => rfl
    | needMore => rfl
    | completed =>
      dsimp only
      split_ifs
      · rfl
      · cases conn.request.bind (addHeaderLine · (cstr root.str)) with
        | none => rfl
        | some r => exact ih _ _

theorem receiveLine_strPos (fd : Fd) (root : ProxyConnection) (answers : List RecvAnswer) :
    (root.receiveLine fd answers).2.1.strPos = root.strPos := by
  induction answers generalizing root with
  | nil => rfl
  | cons a answers ih =>
    unfold ProxyConnection.receiveLine
    cases a with
    | bytes b =>
      cases b with
      | nil => rfl
      | cons c b =>
        dsimp only
        split_ifs
        · rfl
        · exact ih _
    | again => rfl
    | error => rfl

theorem readHeadersLoop_strPos (fd : Fd) (n : ℕ) (conn : RewriteConnection) (answers : List RecvAnswer) :
    (readHeadersLoop fd n conn answers).2.1.root.strPos = conn.root.strPos := by
  induction n generalizing conn answers with
  | zero => rfl
  | succ n ih =>
    have hline := receiveLine_strPos fd conn.root answers
    unfold readHeadersLoop
    generalize conn.root.receiveLine fd answers = res at hline
    obtain ⟨ret, root, rest⟩ := res
    cases ret with
    | error => exact hline
    | needMore => exact hline
    | completed =>
      dsimp only
      split_ifs
      · exact hline
      · cases conn.request.bind (addHeaderLine · (cstr root.str)) with
        | none => exact hline
        | some r => exact (ih _ _).trans hline

/-! ## Reading -/

/-- Reading fails without a byte only at the first answer. -/
theorem receiveLoop_error_nil {root : ProxyConnection} {wanted : ℕ} (hwanted : 0 < wanted)
    (herr : (ProxyConnection.receiveLoop fd root wanted answers).1 = .error)
    (hstr : (ProxyConnection.receiveLoop fd root wanted answers).2.1.str = []) :
    answers.head? = some .error ∨ answers.head? = some (.bytes []) := by
  unfold ProxyConnection.receiveLoop at herr hstr
  cases answers with
  | nil =>
    dsimp only at herr
    rw [if_neg hwanted.ne'] at herr
    cases herr
  | cons a answers =>
    dsimp only at herr hstr
    rw [if_neg hwanted.ne'] at herr hstr
    cases a with
    | again => cases herr
    | error => exact .inl rfl
    | bytes b =>
      dsimp only at herr hstr
      split_ifs at herr hstr with hb
      · have : b = [] := (take_eq_nil_iff.mp hb).resolve_left hwanted.ne'
        exact .inr (by rw [this]; rfl)
      · -- a byte has come in, and it stays in the buffer
        obtain ⟨got, -, hrec, -⟩ := ProxyConnection.receiveLoop_spec fd answers
          ({ root with str := root.str ++ b.take wanted,
                       strRecv := root.strRecv + (b.take wanted).length }.logReceived fd (b.take wanted))
          (wanted - (b.take wanted).length)
        rw [hrec.str] at hstr
        simp only [ProxyConnection.logReceived, append_eq_nil_iff] at hstr
        exact absurd hstr.1.2 hb

/-- Reading data keeps the invariant, unless it finds the buffer full without data, or the end
of the body with an empty buffer. -/
theorem receiveBody_inv (h : BodyInv conn) (hopen : conn.bodyIsClosed = false) {wanted : ℕ}
    (hknown : conn.bodyMode = .knownLength → conn.bodyLength ≠ 0)
    (hwanted : conn.bodyMode = .untilClose → 0 < wanted)
    (hfull : MAX_BODY_BUFFER ≤ conn.root.str.length → conn.bodyHasData = true)
    (hclosed : conn.bodyMode = .untilClose → conn.root.str = [] →
      ¬(answers.head? = some .error ∨ answers.head? = some (.bytes [])))
    (hret : (conn.receiveBody fd wanted answers).1 ≠ .error) : BodyInv (conn.receiveBody fd wanted answers).2 := by
  unfold receiveBody at hret ⊢
  by_cases havail : MAX_BODY_BUFFER - conn.root.str.length = 0
  · rw [if_pos havail]
    exact ⟨.inl (hfull (by omega)), h.strPos, h.data, h.chunked, h.trailer⟩
  rw [if_neg havail] at hret ⊢
  obtain ⟨got, -, hrec, -⟩ := ProxyConnection.receiveLoop_spec fd answers
    { conn.root with strRecv := 0 } (min wanted (MAX_BODY_BUFFER - conn.root.str.length))
  have herr := @receiveLoop_error_nil fd answers { conn.root with strRecv := 0 }
    (min wanted (MAX_BODY_BUFFER - conn.root.str.length))
  unfold ProxyConnection.receive at hret ⊢
  generalize ProxyConnection.receiveLoop fd { conn.root with strRecv := 0 }
    (min wanted (MAX_BODY_BUFFER - conn.root.str.length)) answers = res at hrec herr hret ⊢
  obtain ⟨ret, root, rest⟩ := res
  dsimp only at hrec herr hret ⊢
  have hpos : root.strPos = 0 := hrec.strPos.trans h.strPos
  have hdata : decide (0 < root.str.length) = true ↔ root.str ≠ [] := by
    rw [decide_eq_true_eq, length_pos_iff]
  -- a buffer that is full has data
  have hwaits : decide (0 < root.str.length) = true ∨ conn.bodyIsClosed = false ∧
      decide (root.str.length = MAX_BODY_BUFFER) = false := by
    by_cases hlen : 0 < root.str.length
    · exact .inl (decide_eq_true hlen)
    · refine .inr ⟨hopen, decide_eq_false ?_⟩
      unfold MAX_BODY_BUFFER
      omega
  cases hmode : conn.bodyMode with
  | none =>
    by_cases he : ret = .error
    · simp [hmode, he] at hret
    · simp only [he, ↓reduceIte]
      exact ⟨hwaits, hpos, fun _ => hdata, by simp, by simp⟩
  | knownLength =>
    by_cases he : ret = .error
    · simp [hmode, he] at hret
    · simp only [he, ↓reduceIte]
      split_ifs with hdone
      · -- the last bytes of the body have come in
        have hgot : got ≠ [] := by
          rintro rfl
          have hzero : root.strRecv = 0 := by rw [hrec.strRecv]; rfl
          rw [hzero] at hdone
          exact hknown hmode (by simpa using hdone)
        have hne : root.str ≠ [] := by
          rw [hrec.str]
          exact fun hnil => hgot (append_eq_nil_iff.mp hnil).2
        exact ⟨.inl (hdata.mpr hne), hpos, fun _ => hdata, by simp, by simp⟩
      · exact ⟨hwaits, hpos, fun _ => hdata, by simp, by simp⟩
  | untilClose =>
    by_cases he : ret = .error
    · simp only [he, ↓reduceIte]
      have hne : root.str ≠ [] := by
        intro hnil
        have hnil' : conn.root.str = [] := by
          rw [hrec.str] at hnil
          exact (append_eq_nil_iff.mp hnil).1
        have hw := hwanted hmode
        exact hclosed hmode hnil' (herr (by omega) he hnil)
      exact ⟨.inl (hdata.mpr hne), hpos, fun _ => hdata, by simp, by simp⟩
    · simp only [he, ↓reduceIte]
      exact ⟨hwaits, hpos, fun _ => hdata, by simp, by simp⟩
  | chunked =>
    by_cases he : ret = .error
    · simp [hmode, he] at hret
    · simp only [he, ↓reduceIte]
      split_ifs with hdone
      · exact ⟨hwaits, hpos, by simp, fun _ => hopen, by simp⟩
      · exact ⟨hwaits, hpos, by simp, fun _ => hopen, fun _ _ hl => absurd hl hdone⟩

theorem linesEnd_iff (parse : Bool) : LinesEnd conn.request conn.root fd answers ↔
    ({ conn with parseChunkTrailer := parse }.readHeaders fd answers).1 = .completed := by
  unfold LinesEnd readHeaders
  rw [readHeadersLoop_eq fd _ { conn with parseChunkTrailer := parse }]

/-- The lines behind the last chunk. -/
theorem readChunkTrailer_inv (h : BodyInv conn) (hmode : conn.bodyMode = .chunked) (hzero : conn.chunkLength = 0)
    (hends : conn.bodyHasData = false → ¬LinesEnd conn.request conn.root fd answers)
    (hret : (conn.readChunkTrailer fd answers).1 ≠ .error) : BodyInv (conn.readChunkTrailer fd answers).2 := by
  unfold readChunkTrailer at hret ⊢
  by_cases hwait : (!conn.parseChunkTrailer && conn.bodyHasData) = true
  · rw [if_pos hwait]
    exact h
  rw [if_neg hwait] at hret ⊢
  have hdata : conn.bodyHasData = false := by
    cases hparse : conn.parseChunkTrailer with
    | false => simpa [hparse] using hwait
    | true => exact h.trailer hmode hparse hzero
  have hnot : ({ conn with parseChunkTrailer := true }.readHeaders fd answers).1 ≠ .completed :=
    fun hc => hends hdata ((linesEnd_iff true).mpr hc)
  have hpos : ({ conn with parseChunkTrailer := true }.readHeaders fd answers).2.1.root.strPos = 0 :=
    (readHeadersLoop_strPos fd _ _ _).trans h.strPos
  have hframe := readHeadersLoop_eq fd (answers.length + 1) { conn with parseChunkTrailer := true } answers
  unfold readHeaders at hnot hpos hret ⊢
  rw [hframe] at hnot hpos hret ⊢
  generalize readHeadersLoop fd (answers.length + 1)
    { root := ({ conn with parseChunkTrailer := true } : RewriteConnection).root,
      request := ({ conn with parseChunkTrailer := true } : RewriteConnection).request } answers = res at *
  obtain ⟨ret, conn', rest⟩ := res
  cases ret with
  | completed => exact absurd rfl hnot
  | error => exact absurd rfl hret
  | needMore => exact ⟨h.waits, hpos, fun hm => absurd hmode hm, h.chunked, fun _ _ _ => hdata⟩

/-- The data of a chunk, the lines behind the last one, or the rest of a header. -/
theorem readChunk_inv (h : BodyInv conn) (hmode : conn.bodyMode = .chunked)
    (hends : conn.bodyHasData = false → conn.chunkLength = 0 → ¬LinesEnd conn.request conn.root fd answers)
    (hfull : conn.bodyHasData = false → conn.chunkLength ≠ 0 → ¬MAX_BODY_BUFFER ≤ conn.root.str.length)
    (hret : (conn.readChunk fd answers).1 ≠ .error) : BodyInv (conn.readChunk fd answers).2 := by
  unfold readChunk at hret ⊢
  by_cases hzero : conn.chunkLength = 0
  · rw [if_pos hzero] at hret ⊢
    exact readChunkTrailer_inv h hmode hzero (fun hdata => hends hdata hzero) hret
  · rw [if_neg hzero] at hret ⊢
    refine receiveBody_inv h (h.chunked hmode) (by simp [hmode]) (by simp [hmode]) ?_ (by simp [hmode]) hret
    intro hlen
    by_contra hdata
    exact hfull (by simpa using hdata) hzero hlen

theorem readChunkHeader_inv (h : BodyInv conn) (hmode : conn.bodyMode = .chunked) (hlength : conn.chunkLength < 0)
    (hends : ¬EndsEmpty conn fd answers) :
    ∃ ret conn' rest, conn.readChunkHeader fd answers = (ret, conn', rest) ∧ (ret ≠ some .error → BodyInv conn') ∧
      (ret = none → conn'.bodyMode = .chunked ∧
        (conn'.bodyHasData = false → conn'.chunkLength = 0 → ¬LinesEnd conn'.request conn'.root fd rest) ∧
        (conn'.bodyHasData = false → conn'.chunkLength ≠ 0 → ¬MAX_BODY_BUFFER ≤ conn'.root.str.length)) := by
  have hclosed := h.chunked hmode
  have hneg : ¬ conn.chunkLength = 0 ∧ ¬ 0 < conn.chunkLength := by omega
  have hpos := receiveLine_strPos fd conn.root answers
  unfold EndsEmpty at hends
  simp only [hclosed, hmode, hneg.1, hneg.2, ↓reduceIte, true_and] at hends
  unfold readChunkHeader
  by_cases hwait : (!conn.parseChunkHeader && conn.bodyHasData) = true
  · rw [if_pos hwait]
    exact ⟨_, _, _, rfl, fun _ => h, by simp⟩
  rw [if_neg hwait]
  dsimp only
  generalize conn.root.receiveLine fd answers = res at hpos hends ⊢
  obtain ⟨ret, root, rest⟩ := res
  cases ret with
  | completed =>
    dsimp only at hpos hends ⊢
    by_cases hline : (cstr root.str).head? = some 32 ∨
        ((strtoll 16 (cstr root.str)).2 ≠ [] ∧ (strtoll 16 (cstr root.str)).2.head? ≠ some 59)
    · rw [if_pos hline]
      exact ⟨_, _, _, rfl, by simp, by simp⟩
    rw [if_neg hline]
    by_cases hsign : (strtoll 16 (cstr root.str)).1 < 0
    · rw [if_pos hsign]
      exact ⟨_, _, _, rfl, by simp, by simp⟩
    rw [if_neg hsign]
    -- the line is a chunk header
    have hchunk : ChunkLine (cstr root.str) (strtoll 16 (cstr root.str)).1 := by
      refine ⟨rfl, not_lt.mp hsign, fun he => hline (.inl he), ?_⟩
      by_contra hno
      rw [not_or] at hno
      exact hline (.inr hno)
    refine ⟨_, _, _, rfl, fun _ => ?_, fun _ => ⟨hmode, ?_, ?_⟩⟩
    · refine ⟨h.waits, hpos.trans h.strPos, fun hm => absurd hmode hm, fun _ => hclosed, ?_⟩
      intro _ hparse hzero
      simp [show (strtoll 16 (cstr root.str)).1 = 0 from hzero] at hparse
    · intro hdata hzero hlines
      have hzero : (strtoll 16 (cstr root.str)).1 = 0 := hzero
      rw [hzero] at hchunk
      exact hends ⟨hdata, .inl ⟨hchunk, hlines⟩⟩
    · intro hdata hnz hlen
      have hnz : (strtoll 16 (cstr root.str)).1 ≠ 0 := hnz
      exact hends ⟨hdata, .inr ⟨⟨_, lt_of_le_of_ne (not_lt.mp hsign) (Ne.symm hnz), hchunk⟩, hlen⟩⟩
  | error =>
    refine ⟨_, _, _, rfl, fun _ => ?_, fun _ => ⟨hmode, fun _ hzero => absurd hzero hneg.1, ?_⟩⟩
    · exact ⟨h.waits, hpos.trans h.strPos, fun hm => absurd hmode hm, fun _ => hclosed,
        fun _ _ hzero => absurd hzero hneg.1⟩
    · exact fun hdata _ hlen => hends ⟨hdata, hlen⟩
  | needMore =>
    refine ⟨_, _, _, rfl, fun _ => ?_, fun _ => ⟨hmode, fun _ hzero => absurd hzero hneg.1, ?_⟩⟩
    · exact ⟨h.waits, hpos.trans h.strPos, fun hm => absurd hmode hm, fun _ => hclosed,
        fun _ _ hzero => absurd hzero hneg.1⟩
    · exact fun hdata _ hlen => hends ⟨hdata, hlen⟩

theorem readBody_inv (h : BodyInv conn) (hends : ¬EndsEmpty conn fd answers)
    (hret : (conn.readBody fd answers).1 ≠ .error) : BodyInv (conn.readBody fd answers).2 := by
  unfold readBody at hret ⊢
  by_cases hclosed : conn.bodyIsClosed = true
  · rw [if_pos hclosed]
    exact h
  rw [if_neg hclosed] at hret ⊢
  have hopen : conn.bodyIsClosed = false := by simpa using hclosed
  -- outside of chunks, a full buffer is one with data
  have hfull : conn.bodyMode ≠ .chunked → MAX_BODY_BUFFER ≤ conn.root.str.length → conn.bodyHasData = true := by
    intro hm hlen
    refine (h.data hm).mpr (length_pos_iff.mp (lt_of_lt_of_le ?_ hlen))
    unfold MAX_BODY_BUFFER
    omega
  cases hmode : conn.bodyMode with
  | none => exact h
  | knownLength =>
    rw [hmode] at hret
    dsimp only at hret ⊢
    by_cases hzero : conn.bodyLength = 0
    · rw [if_pos hzero]
      exact h
    · rw [if_neg hzero] at hret ⊢
      exact receiveBody_inv h hopen (fun _ => hzero) (by simp [hmode]) (hfull (by simp [hmode])) (by simp [hmode]) hret
  | untilClose =>
    rw [hmode] at hret
    refine receiveBody_inv h hopen (by simp [hmode]) (fun _ => by simp [MAX_BODY_BUFFER])
      (hfull (by simp [hmode])) ?_ hret
    intro _ hnil hhead
    have hdata : conn.bodyHasData = false := by
      rw [← Bool.not_eq_true, h.data (by simp [hmode])]
      exact not_not.mpr hnil
    exact hends ⟨hopen, hdata, by rw [hmode]; exact hhead⟩
  | chunked =>
    rw [hmode] at hret
    dsimp only at hret ⊢
    by_cases hlength : conn.chunkLength < 0
    · rw [if_pos hlength] at hret ⊢
      obtain ⟨ret, conn', rest, heq, hinv, hgo⟩ := readChunkHeader_inv h hmode hlength hends
      rw [heq] at hret ⊢
      cases ret with
      | some ret => exact hinv fun he => hret (Option.some.inj he)
      | none =>
        obtain ⟨hmode', hends', hfull'⟩ := hgo rfl
        exact readChunk_inv (hinv (by simp)) hmode' hends' hfull' hret
    · rw [if_neg hlength] at hret ⊢
      refine readChunk_inv h hmode ?_ ?_ hret
      · intro hdata hzero hlines
        refine hends ⟨hopen, hdata, ?_⟩
        rw [hmode]
        simpa [hzero] using hlines
      · intro hdata hnz hlen
        refine hends ⟨hopen, hdata, ?_⟩
        rw [hmode]
        simpa [hnz, show 0 < conn.chunkLength by omega] using hlen

/-! ## Sending -/

/-- Sending stops only where something is left to send. -/
theorem sendLoop_needMore (fd : Fd) (answers : List SendAnswer) (root : ProxyConnection)
    (h : (ProxyConnection.sendLoop fd root answers).1 = .needMore) :
    (ProxyConnection.sendLoop fd root answers).2.strPos < (ProxyConnection.sendLoop fd root answers).2.str.length := by
  induction answers generalizing root with
  | nil =>
    unfold ProxyConnection.sendLoop at h ⊢
    by_cases hlen : root.str.length ≤ root.strPos
    · rw [if_pos hlen] at h
      cases h
    · rw [if_neg hlen]
      exact Nat.not_le.mp hlen
  | cons a answers ih =>
    unfold ProxyConnection.sendLoop at h ⊢
    by_cases hlen : root.str.length ≤ root.strPos
    · rw [if_pos hlen] at h
      cases h
    rw [if_neg hlen] at h ⊢
    cases a with
    | accept k =>
      dsimp only at h ⊢
      split_ifs at h ⊢
      exact ih _ h
    | again => exact Nat.not_le.mp hlen
    | error => cases h

theorem send_needMore {root : ProxyConnection} {answers : List SendAnswer} (h : (root.send fd answers).1 = .needMore) :
    (root.send fd answers).2.strPos < (root.send fd answers).2.str.length := by
  unfold ProxyConnection.send at h ⊢
  dsimp only at h ⊢
  split_ifs at h ⊢
  exact sendLoop_needMore fd answers _ h

/-- Sending keeps the invariant, unless it sends the last of the body. -/
theorem sendBody_inv (h : BodyInv conn) {answers : List SendAnswer} (hret : (conn.sendBody fd answers).1 = .needMore) :
    BodyInv (conn.sendBody fd answers).2 := by
  unfold sendBody at hret ⊢
  by_cases hdata : conn.bodyHasData = true
  swap
  · rw [if_neg hdata]
    exact h
  rw [if_pos hdata] at hret ⊢
  have hmore := @send_needMore fd conn.root answers
  generalize conn.root.send fd answers = res at hmore hret ⊢
  obtain ⟨ret, root⟩ := res
  dsimp only at hmore hret ⊢
  by_cases herr : ret = .error
  · rw [if_pos herr] at hret
    cases hret
  rw [if_neg herr] at hret ⊢
  have hinv : (conn.bodyIsClosed = true → 0 < (root.str.drop root.strPos).length) → BodyInv { conn with
      root := { root with str := root.str.drop root.strPos, strPos := 0 }
      bodyIsFull := (root.str.drop root.strPos).length = MAX_BODY_BUFFER
      bodyHasData := 0 < (root.str.drop root.strPos).length
      bodySent := conn.bodySent + root.strSent } := by
    intro hclosed
    refine ⟨?_, rfl, fun _ => ?_, h.chunked, ?_⟩
    · by_cases hlen : 0 < (root.str.drop root.strPos).length
      · exact .inl (decide_eq_true hlen)
      · refine .inr ⟨by simpa using fun hc => hlen (hclosed hc), decide_eq_false ?_⟩
        unfold MAX_BODY_BUFFER
        omega
    · have hsome : decide (0 < (root.str.drop root.strPos).length) = true ↔ root.str.drop root.strPos ≠ [] := by
        rw [decide_eq_true_eq, length_pos_iff]
      exact hsome
    · -- while the trailer is read there is no data
      intro hm hparse hzero
      rw [h.trailer hm hparse hzero] at hdata
      cases hdata
  have hleft : ret = .needMore → 0 < (root.str.drop root.strPos).length := by
    intro he
    have := hmore he
    rw [length_drop]
    omega
  by_cases hdone : ret = .completed ∧
      (!conn.bodyIsClosed || decide (0 < (root.str.drop root.strPos).length)) = true
  · rw [if_pos hdone]
    refine hinv fun hclosed => ?_
    have := hdone.2
    rw [hclosed] at this
    simpa using this
  · rw [if_neg hdone] at hret ⊢
    exact hinv fun _ => hleft hret

/-! ## Polling -/

/-- A poll in a BODY state keeps the invariant, leaves the state, or fails. -/
theorem pollBody_inv (h : BodyInv conn) {fromFd toFd : Fd} {hasFrom hasTo : Bool} {input : PollInput}
    {next : RewriteConnection → DataStatus × RewriteConnection}
    (hends : hasFrom = true → ¬EndsEmpty conn fromFd input.recv) :
    let res := conn.pollBody fromFd toFd hasFrom hasTo input next
    res.1 = .error ∨ BodyInv res.2 ∨ ∃ conn', res = next conn' := by
  unfold pollBody
  have hread : (if hasFrom then conn.readBody fromFd input.recv else (.needMore, conn)).1 ≠ .error →
      BodyInv (if hasFrom then conn.readBody fromFd input.recv else (.needMore, conn)).2 := by
    cases hasFrom with
    | false => exact fun _ => h
    | true => exact readBody_inv h (hends rfl)
  generalize (if hasFrom then conn.readBody fromFd input.recv else (.needMore, conn)) = res at hread
  obtain ⟨ret, conn₁⟩ := res
  dsimp only at hread ⊢
  by_cases hsend : ret ≠ .error ∧ hasTo = true
  swap
  · rw [if_neg hsend]
    by_cases herr : ret = .error
    · exact .inl herr
    · exact .inr (.inl (hread herr))
  rw [if_pos hsend]
  have hinv := @sendBody_inv _ toFd (hread hsend.1) input.send
  generalize conn₁.sendBody toFd input.send = res at hinv
  obtain ⟨ret', conn₂⟩ := res
  cases ret' with
  | error => exact .inl rfl
  | needMore => exact .inr (.inl (hinv rfl))
  | completed => exact .inr (.inr ⟨conn₂, rfl⟩)

/-- The mode of a new body does not matter. -/
theorem untilCloseBody_inv (h : BodyInv conn) (hm : conn.bodyMode ≠ .chunked) (r : HttpRequest) :
    BodyInv (conn.untilCloseBody r).2 := by
  unfold untilCloseBody
  cases (r.findHeader "Proxy-Connection").or (r.findHeader "Connection") with
  | none => exact h
  | some v =>
    dsimp only
    split_ifs
    · exact ⟨h.waits, h.strPos, fun _ => h.data hm, by simp, by simp⟩
    · exact h

/-- A body begins with an empty buffer. -/
theorem getBodyLength_inv (isRequest : Bool) (hbody : (conn.getBodyLength isRequest).1 = true) :
    BodyInv (conn.getBodyLength isRequest).2 := by
  have hreset : BodyInv conn.resetBody :=
    ⟨.inr ⟨rfl, rfl⟩, rfl, fun _ => by simp [resetBody, ProxyConnection.rewind], fun _ => rfl, fun hm => by cases hm⟩
  unfold getBodyLength at hbody ⊢
  cases hr : conn.request with
  | none =>
    rw [hr] at hbody
    cases hbody
  | some r =>
    rw [hr] at hbody
    dsimp only at hbody ⊢
    have hmode : conn.resetBody.bodyMode ≠ .chunked := by simp [resetBody]
    by_cases hnone : hasNoBody r isRequest = true
    · rw [if_pos hnone]
      exact hreset
    rw [if_neg hnone] at hbody ⊢
    cases hlen : r.findHeader "Content-Length" with
    | some v =>
      rw [hlen] at hbody
      dsimp only at hbody ⊢
      split_ifs at hbody ⊢
      · exact ⟨hreset.waits, hreset.strPos, fun _ => hreset.data hmode, by simp, by simp⟩
      · exact untilCloseBody_inv hreset hmode r
    | none =>
      dsimp only
      split_ifs
      · exact ⟨hreset.waits, hreset.strPos, by simp, fun _ => rfl, by simp⟩
      · exact untilCloseBody_inv hreset hmode r

theorem readRequest_state (conn : RewriteConnection) (answers : List RecvAnswer) :
    (conn.readRequest answers).2.state = conn.state := by
  unfold readRequest
  generalize conn.root.receiveLine .slirp answers = res
  obtain ⟨ret, root, rest⟩ := res
  cases ret with
  | completed =>
    dsimp only
    split
    · rfl
    split
    · rfl
    split_ifs <;> rfl
  | error => rfl
  | needMore => rfl

theorem readReply_state (conn : RewriteConnection) (answers : List RecvAnswer) :
    (conn.readReply answers).2.state = conn.state := by
  unfold readReply
  generalize conn.root.receiveLine .proxy answers = res
  obtain ⟨ret, root, rest⟩ := res
  cases ret with
  | completed =>
    dsimp only
    split
    · rfl
    split
    · split <;> rfl
    · rfl
  | error => rfl
  | needMore => rfl

theorem readHeaders_state (conn : RewriteConnection) (fd : Fd) (answers : List RecvAnswer) :
    (conn.readHeaders fd answers).2.1.state = conn.state := by
  unfold readHeaders
  rw [readHeadersLoop_eq]

/-- The headers are sent: a body begins, or there is none. -/
theorem pollSend_inv (hstate : ¬conn.InBody) (fd : Fd) (isRequest : Bool) (answers : List SendAnswer) :
    (conn.pollSend fd isRequest answers).1 = .error ∨
      ((conn.pollSend fd isRequest answers).2.InBody → BodyInv (conn.pollSend fd isRequest answers).2) := by
  unfold pollSend
  generalize conn.root.send fd answers = res
  obtain ⟨ret, root⟩ := res
  cases ret with
  | error => exact .inl rfl
  | needMore => exact .inr fun h => absurd h hstate
  | completed =>
    have hinv := @getBodyLength_inv { conn with root := root } isRequest
    dsimp only
    generalize ({ conn with root := root } : RewriteConnection).getBodyLength isRequest = res at hinv
    obtain ⟨found, conn'⟩ := res
    cases found with
    | false => exact .inl rfl
    | true =>
      have h := hinv rfl
      refine .inr ?_
      dsimp only
      split_ifs <;> intro hbody
      all_goals exact ⟨h.waits, h.strPos, h.data, h.chunked, h.trailer⟩

/-- The sockets of the body, if there is one. -/
def bodySource (conn : RewriteConnection) (input : PollInput) : Option Fd :=
  match conn.state with
  | .requestBody => if input.hasSlirp then some .slirp else none
  | .replyBody => if input.hasProxy then some .proxy else none
  | _ => none

/-- The poll reads from the source of a body, and what it gets ends the body, or fills the
buffer, with no data there. -/
def PollEndsEmpty (conn : RewriteConnection) (input : PollInput) : Prop :=
  ∃ fd, conn.bodySource input = some fd ∧ EndsEmpty conn fd input.recv

theorem poll_inv (footer : List UInt8) (h : conn.freed = false → conn.InBody → BodyInv conn) {input : PollInput}
    (hends : ¬PollEndsEmpty conn input) :
    (conn.poll footer input).freed = false → (conn.poll footer input).InBody → BodyInv (conn.poll footer input) := by
  unfold poll
  by_cases hfreed : conn.freed = true
  · rw [if_pos hfreed]
    exact h
  have hlive : conn.freed = false := by simpa using hfreed
  rw [if_neg hfreed]
  have hstep : (conn.pollState footer input).1 = .error ∨
      ((conn.pollState footer input).2.InBody → BodyInv (conn.pollState footer input).2) := by
    unfold pollState
    cases hstate : conn.state with
    | connecting =>
      dsimp only
      split_ifs <;> simp [InBody, idle, hstate]
    | createSocketPair =>
      dsimp only
      split_ifs <;> simp [InBody, idle, hstate]
    | requestFirstLine =>
      have hread := readRequest_state conn input.recv
      generalize conn.readRequest input.recv = res at hread
      obtain ⟨ret, conn'⟩ := res
      dsimp only at hread ⊢
      split_ifs
      · cases ret <;> simp [InBody, hread, hstate]
      · simp [InBody, idle, hstate]
    | requestHeaders =>
      have hread := readHeaders_state conn .slirp input.recv
      generalize conn.readHeaders .slirp input.recv = res at hread
      obtain ⟨ret, conn', rest⟩ := res
      dsimp only at hread ⊢
      split_ifs
      · cases ret <;> simp [InBody, hread, hstate]
      · simp [InBody, idle, hstate]
    | requestSend =>
      dsimp only
      split_ifs
      · exact pollSend_inv (by simp [InBody, hstate]) _ _ _
      · simp [InBody, idle, hstate]
    | requestBody =>
      have hno : input.hasSlirp = true → ¬EndsEmpty conn .slirp input.recv := fun hs he =>
        hends ⟨.slirp, by simp [bodySource, hstate, hs], he⟩
      rcases @pollBody_inv _ (h hlive (.inl hstate)) _ .proxy _ input.hasProxy _ requestBodySent
        hno with herr | hinv | ⟨conn', hnext⟩
      · exact .inl herr
      · exact .inr fun _ => hinv
      · dsimp only
        rw [hnext]
        exact .inr (by simp [InBody, requestBodySent])
    | replyFirstLine =>
      have hread := readReply_state conn input.recv
      generalize conn.readReply input.recv = res at hread
      obtain ⟨ret, conn'⟩ := res
      dsimp only at hread ⊢
      split_ifs
      · cases ret <;> simp [InBody, hread, hstate]
      · simp [InBody, idle, hstate]
    | replyHeaders =>
      have hread := readHeaders_state conn .proxy input.recv
      generalize conn.readHeaders .proxy input.recv = res at hread
      obtain ⟨ret, conn', rest⟩ := res
      dsimp only at hread ⊢
      split_ifs
      · cases ret <;> simp [InBody, hread, hstate]
      · simp [InBody, idle, hstate]
    | replySend =>
      dsimp only
      split_ifs
      · exact pollSend_inv (by simp [InBody, hstate]) _ _ _
      · simp [InBody, idle, hstate]
    | replyBody =>
      have hno : input.hasProxy = true → ¬EndsEmpty conn .proxy input.recv := fun hs he =>
        hends ⟨.proxy, by simp [bodySource, hstate, hs], he⟩
      rcases @pollBody_inv _ (h hlive (.inr hstate)) _ .slirp _ input.hasSlirp _ replyBodySent
        hno with herr | hinv | ⟨conn', hnext⟩
      · exact .inl herr
      · exact .inr fun _ => hinv
      · dsimp only
        rw [hnext]
        unfold replyBodySent
        split_ifs
        · exact .inl rfl
        · exact .inr (by simp [InBody])
  generalize conn.pollState footer input = res at hstep
  obtain ⟨ret, conn'⟩ := res
  rcases hstep with rfl | hstep
  · intro hno
    cases hno
  · cases ret with
    | error =>
      intro hno
      cases hno
    | needMore => exact fun _ => hstep
    | completed => exact fun _ => hstep

/-! ## Runs -/

/-- A connection after any number of polls, none of which ends a body with an empty buffer. It
begins before or after `socket_connect` has succeeded. -/
inductive Reach (footer : List UInt8) : RewriteConnection → Prop
  | initial (connected : Bool) : Reach footer { state := if connected then .createSocketPair else .connecting }
  | poll {conn : RewriteConnection} (h : Reach footer conn) (input : PollInput) (hends : ¬PollEndsEmpty conn input) :
      Reach footer (conn.poll footer input)

theorem Reach.inv {footer : List UInt8} (h : Reach footer conn) :
    conn.freed = false → conn.InBody → BodyInv conn := by
  induction h with
  | initial connected =>
    intro _ hbody
    cases connected <;> simp [InBody] at hbody
  | poll _ input hends ih => exact poll_inv footer ih hends

/-- **A connection is never left waiting for nothing**, as long as no poll finds the end of a
body, or a line as long as the buffer, while there is no data. -/
theorem select_run {footer : List UInt8} (h : Reach footer conn) (hlive : conn.freed = false) :
    conn.select ≠ [] ∧ ¬(conn.InBody ∧ conn.bodyIsClosed = true ∧ conn.bodyHasData = false) := by
  have hwaits : conn.InBody → conn.Waits := fun hbody => (h.inv hlive hbody).waits
  refine ⟨select_ne_nil hwaits, ?_⟩
  rintro ⟨hbody, hclosed, hdata⟩
  rcases hwaits hbody with hw | hw
  · rw [hdata] at hw
    cases hw
  · rw [hclosed] at hw
    cases hw.1

theorem Reach.polls_outside {footer : List UInt8} (h : Reach footer conn) (inputs : List PollInput)
    (hnone : ∀ k < inputs.length, ∀ input, inputs[k]? = some input →
      (conn.polls footer (inputs.take k)).bodySource input = none) : Reach footer (conn.polls footer inputs) := by
  induction inputs generalizing conn with
  | nil => exact h
  | cons input inputs ih =>
    have hfirst : conn.bodySource input = none := hnone 0 (by simp) input rfl
    refine ih (h.poll input ?_) fun k hk input' hinput => hnone (k + 1) (by simpa using hk) input' hinput
    rintro ⟨fd, hfd, -⟩
    rw [hfirst] at hfd
    cases hfd

/-! ### A reply up to the end of the connection -/

def typed (s : String) : List RecvAnswer := (cstring s).map fun c => .bytes [c]

/-- A request without a body, and the headers of a reply whose body ends with the connection. -/
def headersOfClose : List PollInput :=
  [{ hasSlirp := false, hasProxy := true },
    { hasSlirp := true, hasProxy := false, recv := typed "GET http://h/ HTTP/1.0\r\n" },
    { hasSlirp := true, hasProxy := false, recv := typed "\r\n" },
    { hasSlirp := false, hasProxy := true, send := [.accept 1000] },
    { hasSlirp := false, hasProxy := true, recv := typed "HTTP/1.0 200 OK\r\n" },
    { hasSlirp := false, hasProxy := true, recv := typed "Connection: close\r\n\r\n" },
    { hasSlirp := true, hasProxy := false, send := [.accept 1000] }]

def afterHeaders : RewriteConnection :=
  ({ state := if true then .createSocketPair else .connecting } : RewriteConnection).polls [] headersOfClose

/-- Data comes in, and it is not sent yet. -/
def someData : PollInput := { hasSlirp := false, hasProxy := true, recv := [.bytes [120]] }

theorem afterHeaders_reach : Reach [] afterHeaders := by
  refine (Reach.initial true).polls_outside headersOfClose ?_
  decide +kernel

theorem select_run_data : (afterHeaders.poll [] someData).select ≠ [] ∧
    ¬((afterHeaders.poll [] someData).InBody ∧ (afterHeaders.poll [] someData).bodyIsClosed = true ∧
      (afterHeaders.poll [] someData).bodyHasData = false) := by
  refine select_run (afterHeaders_reach.poll someData ?_) (by decide +kernel)
  rintro ⟨fd, -, -, -, hends⟩
  have hmode : afterHeaders.bodyMode = .untilClose := by decide +kernel
  rw [hmode] at hends
  simp [someData] at hends

/-- The data is sent, and then the server closes the connection: nothing is waited for any more. -/
theorem select_closedEmpty :
    let conn := afterHeaders.polls []
      [someData, { hasSlirp := true, hasProxy := false, send := [.accept 1] },
        { hasSlirp := false, hasProxy := true, recv := [.bytes []] }]
    conn.freed = false ∧ conn.state = .replyBody ∧ conn.bodyIsClosed = true ∧ conn.bodyHasData = false ∧
      conn.select = [] := by
  decide +kernel

end RewriteConnection

end Emulator.Proxy
