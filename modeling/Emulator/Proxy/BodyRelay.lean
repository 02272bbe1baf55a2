import Emulator.Proxy.Rewriter

/-!
# Sized and close-delimited bodies

Between the headers of a message and the next message, a rewriter connection passes the body
on: it reads into the buffer while there is room, and sends from the front of the buffer.
`Relaying` says where the bytes are: what came in since the headers is what has gone out,
followed by what is in the buffer.

`poll_relaying` is the step: a poll keeps `Relaying`, or it is the one that ends the body.
`body_relay` is the run, from the poll that sends the last byte of the headers on.
-/

namespace Emulator.Proxy

open List

namespace RewriteConnection

/-- The messages that can have a body: requests by their method, replies by the method of
their request and their code. -/
def MayHaveBody (r : HttpRequest) : Bool → Prop
  | true => r.reqType = .post ∨ r.reqType = .put
  | false => r.reqType ≠ .head ∧ ¬(100 ≤ r.repCode ∧ r.repCode ≤ 199) ∧ r.repCode ≠ 204 ∧ r.repCode ≠ 304

/-- A decimal number. -/
def Decimal (v : List UInt8) (n : ℕ) : Prop :=
  v ≠ [] ∧ (∀ c ∈ v, 48 ≤ c ∧ c ≤ 57) ∧ digitsValue 10 v = n

/-- How the end of a body is found. -/
inductive BodySize
  | known (n : ℕ)
  | untilClose
  deriving DecidableEq

/-- The headers announce a body: a `Content-Length` of at least 1 or, in a reply with neither
a length nor chunks, a connection that is to be closed. -/
def Announces (r : HttpRequest) (isRequest : Bool) : BodySize → Prop
  | .known n => 1 ≤ n ∧ ∃ v, r.findHeader "Content-Length" = some v ∧ Decimal v n
  | .untilClose => isRequest = false ∧ r.findHeader "Content-Length" = none ∧
      (∀ v, r.findHeader "Transfer-Encoding" = some v → ¬ strcaseeq v (cstring "Chunked")) ∧
      ∃ v, (r.findHeader "Proxy-Connection").or (r.findHeader "Connection") = some v ∧
        strcaseeq v (cstring "Close")

/-- The largest length that `strtoll` can return. -/
def MAX_LENGTH : ℕ := 2 ^ 63 - 1

theorem digitValue_decimal {c : UInt8} (h : 48 ≤ c ∧ c ≤ 57) : digitValue c < 10 := by
  have h₁ : c.toNat ≤ 57 := UInt8.le_iff_toNat_le.mp h.2
  unfold digitValue
  rw [if_pos h]
  omega

theorem isDigit_of_mem {v : List UInt8} (h : ∀ c ∈ v, 48 ≤ c ∧ c ≤ 57) : ∀ c ∈ v, isDigit 10 c = true := by
  intro c hc
  exact decide_eq_true (digitValue_decimal (h c hc))

theorem isspace_decimal {c : UInt8} (h : 48 ≤ c ∧ c ≤ 57) : isspace c = false := by
  have h₁ : (48 : ℕ) ≤ c.toNat := UInt8.le_iff_toNat_le.mp h.1
  have h₂ : c ≠ 32 := by rintro rfl; simp at h₁
  have h₃ : ¬ c ≤ 13 := by
    intro hc
    have : c.toNat ≤ 13 := UInt8.le_iff_toNat_le.mp hc
    omega
  simp [isspace, h₂, h₃]

theorem signOf_decimal {c : UInt8} {v : List UInt8} (h : 48 ≤ c ∧ c ≤ 57) : signOf (c :: v) = (false, c :: v) := by
  have h₁ : (48 : ℕ) ≤ c.toNat := UInt8.le_iff_toNat_le.mp h.1
  unfold signOf
  split
  · next heq => obtain ⟨rfl, -⟩ := List.cons.inj heq; simp at h₁
  · next heq => obtain ⟨rfl, -⟩ := List.cons.inj heq; simp at h₁
  · rfl

theorem hexPrefix_ten (v : List UInt8) : hexPrefix 10 v = v := by
  unfold hexPrefix
  split
  · rw [if_neg (by simp)]
  · rfl

/-- `strtoll` reads the whole of a decimal number. -/
theorem strtoll_decimal {v : List UInt8} {n : ℕ} (h : Decimal v n) :
    strtoll 10 v = (((min n MAX_LENGTH : ℕ) : ℤ), []) := by
  obtain ⟨hne, hdigits, hval⟩ := h
  obtain ⟨c, v, rfl⟩ := exists_cons_of_ne_nil hne
  have hc := hdigits c (by simp)
  have hspace : (c :: v).dropWhile isspace = c :: v := by simp [isspace_decimal hc]
  have htake : (c :: v).takeWhile (isDigit 10) = c :: v := takeWhile_eq_self_iff.mpr (isDigit_of_mem hdigits)
  have hdrop : (c :: v).dropWhile (isDigit 10) = [] := dropWhile_eq_nil_iff.mpr (isDigit_of_mem hdigits)
  unfold strtoll
  rw [hspace, signOf_decimal hc]
  dsimp only
  rw [hexPrefix_ten, htake, hdrop, hval, if_neg (by simp)]
  simp only [Bool.false_eq_true, ↓reduceIte, Prod.mk.injEq, and_true, MAX_LENGTH]
  omega

theorem hasNoBody_of_mayHaveBody {r : HttpRequest} {isRequest : Bool} (h : MayHaveBody r isRequest) :
    hasNoBody r isRequest = false := by
  cases isRequest with
  | true => rcases h with h | h <;> simp [hasNoBody, h]
  | false =>
    obtain ⟨h₁, h₂, h₃, h₄⟩ := h
    have : r.repCode.tdiv 100 ≠ 1 := by
      intro h
      have hsplit := Int.mul_tdiv_add_tmod r.repCode 100
      have hlt := Int.tmod_lt_of_pos r.repCode (show (0 : ℤ) < 100 by omega)
      have hgt := Int.lt_tmod_of_pos r.repCode (show (0 : ℤ) < 100 by omega)
      have hpos := Int.tmod_nonneg 100 (show 0 ≤ r.repCode by omega)
      omega
    simp [hasNoBody, h₁, h₃, h₄, this]

/-- The state in which a body is passed on, the socket it comes from and the one it goes to. -/
def bodyState (isRequest : Bool) : ConnectionState := if isRequest then .requestBody else .replyBody

def sendState (isRequest : Bool) : ConnectionState := if isRequest then .requestSend else .replySend

def bodyFrom (isRequest : Bool) : Fd := if isRequest then .slirp else .proxy

def bodyTo (isRequest : Bool) : Fd := if isRequest then .proxy else .slirp

/-- What is left to read of a body of which `B` has been read. -/
def Remaining (size : BodySize) (B : List UInt8) (conn : RewriteConnection) : Prop :=
  match size with
  | .known n => conn.bodyMode = .knownLength ∧ B.length ≤ min n MAX_LENGTH ∧
      conn.bodyLength = (min n MAX_LENGTH : ℕ) - B.length ∧ (conn.bodyIsClosed → conn.bodyLength = 0)
  | .untilClose => conn.bodyMode = .untilClose

/-- `B` has come in since `start`, and what has gone out is `B` less the buffer. -/
structure Relaying (start : ProxyConnection) (isRequest : Bool) (size : BodySize) (B S : List UInt8)
    (conn : RewriteConnection) : Prop where
  state : conn.state = bodyState isRequest
  freed : conn.freed = false
  strPos : conn.root.strPos = 0
  received : conn.root.received (bodyFrom isRequest) = start.received (bodyFrom isRequest) ++ B
  sent : conn.root.sent (bodyTo isRequest) = start.sent (bodyTo isRequest) ++ S
  split : B = S ++ conn.root.str
  bound : conn.root.str.length ≤ MAX_BODY_BUFFER
  remaining : Remaining size B conn

/-- The connection after `rewrite_connection_get_body_length`. -/
theorem getBodyLength_announced {conn : RewriteConnection} {r : HttpRequest} {isRequest : Bool} {size : BodySize}
    (hr : conn.request = some r) (hbody : MayHaveBody r isRequest) (hsize : Announces r isRequest size) :
    ∃ conn', conn.getBodyLength isRequest = (true, conn') ∧ conn'.root = conn.root.rewind ∧
      conn'.freed = conn.freed ∧ conn'.bodyMode ≠ .none ∧ Remaining size [] conn' := by
  unfold getBodyLength
  rw [hr]
  dsimp only
  rw [hasNoBody_of_mayHaveBody hbody]
  simp only [Bool.false_eq_true, ↓reduceIte]
  cases size with
  | known n =>
    obtain ⟨hn, v, hv, hdec⟩ := hsize
    have hpos : (0 : ℤ) < (min n MAX_LENGTH : ℕ) := by unfold MAX_LENGTH; omega
    simp only [hv, strtoll_decimal hdec]
    rw [if_neg (by simp [hdec.1]), if_pos hpos]
    exact ⟨_, rfl, rfl, rfl, by simp, rfl, by simp, by simp, by simp [resetBody]⟩
  | untilClose =>
    obtain ⟨-, hcl, hte, v, hv, hclose⟩ := hsize
    simp only [hcl]
    rw [if_neg (by rintro ⟨v, hv, hch⟩; exact hte v hv hch)]
    unfold untilCloseBody
    simp only [hv, hclose, ↓reduceIte]
    exact ⟨_, rfl, rfl, rfl, by simp, rfl⟩

/-- No socket error, other than the end of the stream where this is the end of the body. -/
structure Undisturbed (size : BodySize) (input : PollInput) : Prop where
  recv : .error ∉ input.recv
  closed : size ≠ .untilClose → .bytes [] ∉ input.recv
  send : .error ∉ input.send
  reset : .accept 0 ∉ input.send

variable {start : ProxyConnection} {isRequest : Bool} {size : BodySize} {B S : List UInt8} {conn : RewriteConnection}

/-- The bytes read by `receiveBody` into the buffer of a body. -/
theorem Relaying.receive (h : Relaying start isRequest size B S conn) {root : ProxyConnection} {got : List UInt8}
    (hrec : ProxyConnection.Received (bodyFrom isRequest) got { conn.root with strRecv := 0 } root)
    (hroom : got.length ≤ MAX_BODY_BUFFER - conn.root.str.length) {conn' : RewriteConnection}
    (hroot : conn'.root = root) (hstate : conn'.state = conn.state) (hfreed : conn'.freed = conn.freed)
    (hrem : Remaining size (B ++ got) conn') : Relaying start isRequest size (B ++ got) S conn' := by
  have hstr : conn'.root.str = conn.root.str ++ got := by rw [hroot, hrec.str]
  have hbound := h.bound
  refine ⟨hstate.trans h.state, hfreed.trans h.freed, ?_, ?_, ?_, ?_, ?_, hrem⟩
  · rw [hroot, hrec.strPos]; exact h.strPos
  · rw [hroot, hrec.received, h.received, append_assoc]
  · rw [hroot, hrec.sent]; exact h.sent
  · rw [hstr, h.split, append_assoc]
  · rw [hstr, length_append]; omega

/-- Reading keeps `Relaying`. -/
theorem receiveBody_relaying (h : Relaying start isRequest size B S conn) {wanted : ℕ} {answers : List RecvAnswer}
    (hwanted : ∀ n, size = .known n → wanted ≤ min n MAX_LENGTH - B.length) (hopen : conn.bodyIsClosed = false)
    (herror : .error ∉ answers) (hclosed : size ≠ .untilClose → .bytes [] ∉ answers) :
    (conn.receiveBody (bodyFrom isRequest) wanted answers).1 ≠ .error ∧
    ∃ got, Relaying start isRequest size (B ++ got) S (conn.receiveBody (bodyFrom isRequest) wanted answers).2 := by
  unfold receiveBody
  by_cases havail : MAX_BODY_BUFFER - conn.root.str.length = 0
  · rw [if_pos havail]
    refine ⟨by simp, [], ?_⟩
    rw [append_nil]
    exact ⟨h.state, h.freed, h.strPos, h.received, h.sent, h.split, h.bound, h.remaining⟩
  rw [if_neg havail]
  obtain ⟨got, hlen, hrec, herr⟩ := ProxyConnection.receiveLoop_spec (bodyFrom isRequest) answers
    { conn.root with strRecv := 0 } (min wanted (MAX_BODY_BUFFER - conn.root.str.length))
  have hroom : got.length ≤ MAX_BODY_BUFFER - conn.root.str.length := by omega
  have hcount : (ProxyConnection.receiveLoop (bodyFrom isRequest) { conn.root with strRecv := 0 }
      (min wanted (MAX_BODY_BUFFER - conn.root.str.length)) answers).2.1.strRecv = got.length := by
    rw [hrec.strRecv]; simp
  unfold ProxyConnection.receive
  generalize ProxyConnection.receiveLoop (bodyFrom isRequest) { conn.root with strRecv := 0 }
    (min wanted (MAX_BODY_BUFFER - conn.root.str.length)) answers = res at hrec herr hcount
  obtain ⟨ret, root, rest⟩ := res
  dsimp only at hrec herr hcount ⊢
  have hmode := h.remaining
  cases size with
  | untilClose =>
    have hmode : conn.bodyMode = .untilClose := hmode
    simp only [hmode, ↓reduceIte]
    split_ifs <;> exact ⟨by simp, got, h.receive hrec hroom rfl rfl rfl rfl⟩
  | known n =>
    obtain ⟨hmode, hle, hlength, -⟩ := hmode
    have hret : ret ≠ .error := by
      intro he
      rcases herr he with h' | h'
      · exact herror h'
      · exact hclosed (by simp) h'
    have hgot : got.length ≤ min n MAX_LENGTH - B.length := by
      have := hwanted n rfl
      omega
    rw [hmode, if_neg hret]
    dsimp only
    split_ifs with hdone
    · refine ⟨by simp, got, h.receive hrec hroom rfl rfl rfl ⟨rfl, ?_, ?_, fun _ => hdone⟩⟩
      · rw [length_append]; omega
      · simp only [hcount, hlength, length_append]; push_cast; ring
    · refine ⟨by simp, got, h.receive hrec hroom rfl rfl rfl ⟨rfl, ?_, ?_, ?_⟩⟩
      · rw [length_append]; omega
      · simp only [hcount, hlength, length_append]; push_cast; ring
      · simp [hopen]

theorem readBody_relaying (h : Relaying start isRequest size B S conn) {answers : List RecvAnswer}
    (herror : .error ∉ answers) (hclosed : size ≠ .untilClose → .bytes [] ∉ answers) :
    (conn.readBody (bodyFrom isRequest) answers).1 ≠ .error ∧
    ∃ got, Relaying start isRequest size (B ++ got) S (conn.readBody (bodyFrom isRequest) answers).2 := by
  unfold readBody
  by_cases hopen : conn.bodyIsClosed
  · rw [if_pos hopen]
    exact ⟨by simp, [], by simpa using h⟩
  rw [if_neg hopen]
  have hopen : conn.bodyIsClosed = false := by simpa using hopen
  have hmode := h.remaining
  cases size with
  | untilClose =>
    have hmode : conn.bodyMode = .untilClose := hmode
    rw [hmode]
    exact receiveBody_relaying h (by simp) hopen herror hclosed
  | known n =>
    obtain ⟨hmode, hle, hlength, -⟩ := hmode
    rw [hmode]
    dsimp only
    split_ifs
    · exact ⟨by simp, [], by simpa using h⟩
    · refine receiveBody_relaying h ?_ hopen herror hclosed
      rintro m ⟨⟩
      omega

/-- Sending keeps `Relaying`; it completes only when the whole body is through. -/
theorem sendBody_relaying (h : Relaying start isRequest size B S conn) {answers : List SendAnswer}
    (herror : .error ∉ answers) (hreset : .accept 0 ∉ answers) :
    (conn.sendBody (bodyTo isRequest) answers).1 ≠ .error ∧
    ∃ out, Relaying start isRequest size B (S ++ out) (conn.sendBody (bodyTo isRequest) answers).2 ∧
      ((conn.sendBody (bodyTo isRequest) answers).1 = .completed →
        (conn.sendBody (bodyTo isRequest) answers).2.bodyIsClosed ∧
        (conn.sendBody (bodyTo isRequest) answers).2.root.str = []) := by
  unfold sendBody
  by_cases hdata : conn.bodyHasData
  swap
  · rw [if_neg hdata]
    exact ⟨by simp, [], by simpa using h, by simp⟩
  obtain ⟨out, rest, hsent, -, herr⟩ := conn.root.send_spec (bodyTo isRequest) answers
  rw [if_pos hdata]
  generalize conn.root.send (bodyTo isRequest) answers = res at hsent herr
  obtain ⟨ret, root⟩ := res
  have hret : ret ≠ .error := by
    intro he
    rcases herr he with h' | h'
    · exact herror h'
    · exact hreset h'
  have hbuf : conn.root.str = out ++ rest := by rw [← hsent.split, h.strPos, drop_zero]
  have hkeep : Relaying start isRequest size B (S ++ out)
      { conn with
        root := { root with str := root.str.drop root.strPos, strPos := 0 }
        bodyIsFull := (root.str.drop root.strPos).length = MAX_BODY_BUFFER
        bodyHasData := 0 < (root.str.drop root.strPos).length
        bodySent := conn.bodySent + root.strSent } := by
    refine ⟨h.state, h.freed, rfl, ?_, ?_, ?_, ?_, h.remaining⟩
    · exact (congrFun hsent.received _).trans h.received
    · rw [← append_assoc, ← h.sent]; exact hsent.sent
    · rw [h.split, hbuf]
      simp only [hsent.drop, append_assoc]
    · have := h.bound
      simp only [hsent.drop]
      rw [hbuf, length_append] at this
      omega
  dsimp only at hsent hret ⊢
  rw [if_neg hret]
  split_ifs with hmore
  · exact ⟨by simp, out, hkeep, by simp⟩
  · refine ⟨hret, out, hkeep, ?_⟩
    rintro rfl
    simpa using hmore

/-- The body is through: all of `B` has been sent, and nothing else has been read. -/
structure Relayed (start : ProxyConnection) (isRequest : Bool) (size : BodySize) (B : List UInt8)
    (conn : RewriteConnection) : Prop where
  received : conn.root.received (bodyFrom isRequest) = start.received (bodyFrom isRequest) ++ B
  sent : conn.root.sent (bodyTo isRequest) = start.sent (bodyTo isRequest) ++ B
  str : conn.root.str = []
  length : ∀ n, size = .known n → B.length = min n MAX_LENGTH

/-- The end of a body that has been sent. -/
theorem Relaying.relayed (h : Relaying start isRequest size B S conn) (hclosed : conn.bodyIsClosed)
    (hstr : conn.root.str = []) {conn' : RewriteConnection} (hroot : conn'.root = conn.root) :
    Relayed start isRequest size B conn' := by
  have hBS : B = S := by rw [h.split, hstr, append_nil]
  refine ⟨by rw [hroot, h.received], by rw [hroot, h.sent, hBS], by rw [hroot, hstr], ?_⟩
  rintro n rfl
  obtain ⟨-, hle, hlength, hzero⟩ := h.remaining
  have := hzero hclosed
  omega

theorem pollBody_relaying (h : Relaying start isRequest size B S conn) {input : PollInput}
    (hin : Undisturbed size input) (hasFrom hasTo : Bool)
    (next : RewriteConnection → DataStatus × RewriteConnection)
    (hnext : ∀ c, (next c).2.root = c.root ∧ ((next c).1 = .error ∨ (next c).2.state ≠ bodyState isRequest)) :
    let res := conn.pollBody (bodyFrom isRequest) (bodyTo isRequest) hasFrom hasTo input next
    ∃ B', (res.1 ≠ .error ∧ ∃ S', Relaying start isRequest size B' S' res.2) ∨
      Relayed start isRequest size B' res.2 ∧ (res.1 = .error ∨ res.2.state ≠ bodyState isRequest) := by
  unfold pollBody
  -- reading, if the socket is ready
  have hread : ∃ got, (if hasFrom then conn.readBody (bodyFrom isRequest) input.recv
        else (.needMore, conn)).1 ≠ .error ∧
      Relaying start isRequest size (B ++ got) S (if hasFrom then conn.readBody (bodyFrom isRequest) input.recv
        else (.needMore, conn)).2 := by
    split_ifs
    · obtain ⟨hret, got, hgot⟩ := readBody_relaying h hin.recv hin.closed
      exact ⟨got, hret, hgot⟩
    · exact ⟨[], by simp, by simpa using h⟩
  obtain ⟨got, hret, hgot⟩ := hread
  generalize (if hasFrom then conn.readBody (bodyFrom isRequest) input.recv else (.needMore, conn)) = res at hret hgot
  obtain ⟨ret, conn₁⟩ := res
  dsimp only at hret hgot ⊢
  refine ⟨B ++ got, ?_⟩
  by_cases hto : hasTo
  swap
  · rw [if_neg (by simp [hto])]
    exact .inl ⟨hret, S, hgot⟩
  -- then sending
  rw [if_pos ⟨hret, hto⟩]
  obtain ⟨hret', out, hout, hdone⟩ := sendBody_relaying hgot hin.send hin.reset
  generalize conn₁.sendBody (bodyTo isRequest) input.send = res' at hret' hout hdone
  obtain ⟨ret', conn₂⟩ := res'
  dsimp only at hret' hout hdone ⊢
  cases ret' with
  | error => exact absurd rfl hret'
  | needMore => exact .inl ⟨by simp, S ++ out, hout⟩
  | completed =>
    obtain ⟨hclosed, hstr⟩ := hdone rfl
    exact .inr ⟨hout.relayed hclosed hstr (hnext conn₂).1, (hnext conn₂).2⟩

/-- One poll in the BODY state: the body is still being passed on, or it is through. -/
theorem poll_relaying (footer : List UInt8) (h : Relaying start isRequest size B S conn) {input : PollInput}
    (hin : Undisturbed size input) :
    ∃ B', (∃ S', Relaying start isRequest size B' S' (conn.poll footer input)) ∨
      Relayed start isRequest size B' (conn.poll footer input) ∧
        ((conn.poll footer input).freed ∨ (conn.poll footer input).state ≠ bodyState isRequest) := by
  have hbody : ∃ B', ((conn.pollState footer input).1 ≠ .error ∧
      ∃ S', Relaying start isRequest size B' S' (conn.pollState footer input).2) ∨
      Relayed start isRequest size B' (conn.pollState footer input).2 ∧
        ((conn.pollState footer input).1 = .error ∨ (conn.pollState footer input).2.state ≠ bodyState isRequest) := by
    unfold pollState
    rw [h.state]
    cases isRequest with
    | true =>
      exact pollBody_relaying h hin _ _ requestBodySent
        (fun c => ⟨rfl, .inr (by simp [requestBodySent, bodyState])⟩)
    | false =>
      refine pollBody_relaying h hin _ _ replyBodySent ?_
      intro c
      unfold replyBodySent
      split_ifs
      · exact ⟨rfl, .inl rfl⟩
      · exact ⟨rfl, .inr (by simp [bodyState])⟩
  unfold poll
  rw [h.freed]
  generalize conn.pollState footer input = res at hbody
  obtain ⟨ret, conn₁⟩ := res
  obtain ⟨B', ⟨hret, S', hr⟩ | ⟨hr, hleft⟩⟩ := hbody
  · refine ⟨B', .inl ⟨S', ?_⟩⟩
    cases ret with
    | error => exact absurd rfl hret
    | needMore => exact hr
    | completed => exact hr
  · refine ⟨B', .inr ?_⟩
    cases ret with
    | error => exact ⟨⟨hr.received, hr.sent, hr.str, hr.length⟩, .inl rfl⟩
    | needMore => exact ⟨hr, .inr (hleft.resolve_left (by simp))⟩
    | completed => exact ⟨hr, .inr (hleft.resolve_left (by simp))⟩

/-- The poll that sends the last byte of the headers starts the body with an empty buffer. -/
theorem poll_headersSent (footer : List UInt8) {r : HttpRequest} (hstate : conn.state = sendState isRequest)
    (hfreed : conn.freed = false) (hr : conn.request = some r) (hbody : MayHaveBody r isRequest)
    (hsize : Announces r isRequest size) {input : PollInput}
    (hsent : (conn.poll footer input).state ≠ sendState isRequest) :
    Relaying (conn.poll footer input).root isRequest size [] [] (conn.poll footer input) := by
  have hpoll : ∃ b : Bool, conn.pollState footer input =
      if b then conn.pollSend (bodyTo isRequest) isRequest input.send else conn.idle := by
    unfold pollState
    rw [hstate]
    cases isRequest
    · exact ⟨input.hasSlirp, rfl⟩
    · exact ⟨input.hasProxy, rfl⟩
  obtain ⟨b, hpoll⟩ := hpoll
  unfold poll at hsent ⊢
  rw [hfreed, hpoll] at hsent ⊢
  cases b with
  | false => exact absurd hstate hsent
  | true =>
    simp only [Bool.false_eq_true, ↓reduceIte] at hsent ⊢
    unfold pollSend at hsent ⊢
    generalize conn.root.send (bodyTo isRequest) input.send = res at hsent ⊢
    obtain ⟨ret, root⟩ := res
    cases ret with
    | error => exact absurd hstate hsent
    | needMore => exact absurd hstate hsent
    | completed =>
      have hreq : ({ conn with root := root } : RewriteConnection).request = some r := hr
      obtain ⟨conn', hget, hroot, hfreed', hmode, hrem⟩ := getBodyLength_announced hreq hbody hsize
      simp only [hget, hmode, ne_eq, not_false_eq_true, ↓reduceIte]
      refine ⟨rfl, hfreed'.trans hfreed, ?_, by simp, by simp, ?_, ?_, hrem⟩
      · simp [hroot, ProxyConnection.rewind]
      · simp [hroot, ProxyConnection.rewind]
      · simp [hroot, ProxyConnection.rewind]

/-- As long as the connection is in the BODY state, `Relaying` holds. -/
theorem polls_relaying (footer : List UInt8) (inputs : List PollInput) (hin : ∀ input ∈ inputs, Undisturbed size input)
    (hbody : ∀ k < inputs.length, (conn.polls footer (inputs.take k)).state = bodyState isRequest ∧
      (conn.polls footer (inputs.take k)).freed = false)
    (h : Relaying start isRequest size B S conn) :
    ∃ B', (∃ S', Relaying start isRequest size B' S' (conn.polls footer inputs)) ∨
      Relayed start isRequest size B' (conn.polls footer inputs) := by
  induction inputs generalizing conn B S with
  | nil => exact ⟨B, .inl ⟨S, h⟩⟩
  | cons input inputs ih =>
    obtain ⟨B₁, ⟨S₁, h₁⟩ | ⟨h₁, hleft⟩⟩ := poll_relaying footer h (hin input (by simp))
    · refine ih (fun i hi => hin i (by simp [hi])) ?_ h₁
      intro k hk
      exact hbody (k + 1) (by simpa using hk)
    · -- the body is through: there is no further poll
      cases inputs with
      | nil => exact ⟨B₁, .inr h₁⟩
      | cons input' inputs =>
        obtain ⟨hs, hf⟩ := hbody 1 (by simp)
        have hs' : (conn.poll footer input).state = bodyState isRequest := hs
        have hf' : (conn.poll footer input).freed = false := hf
        rcases hleft with hl | hl
        · rw [hf'] at hl
          cases hl
        · exact absurd hs' hl

/-- **Bodies are relayed exactly.** Take a connection that sends the headers of a message that
can have a body, and whose headers announce one of `n ≥ 1` bytes or, in a reply, one that ends
with the connection. The poll that sends the last byte of the headers enters the BODY state
with an empty buffer. From there on, whatever the sockets answer short of an error, and as
long as the connection has been in the BODY state: what was sent is a prefix of what was read,
the buffer is bounded, no more than the announced bytes are read (`strtoll` cuts the number at
2^63 - 1), and a poll that leaves the state has sent all of them. -/
theorem body_relay (footer : List UInt8) (conn : RewriteConnection) (isRequest : Bool) (size : BodySize)
    (r : HttpRequest) (hstate : conn.state = sendState isRequest) (hfreed : conn.freed = false)
    (hr : conn.request = some r) (hbody : MayHaveBody r isRequest) (hsize : Announces r isRequest size)
    (input : PollInput) (hsent : (conn.poll footer input).state ≠ sendState isRequest) :
    let start := conn.poll footer input
    start.state = bodyState isRequest ∧ start.freed = false ∧ start.root.str = [] ∧
    ∀ inputs : List PollInput, (∀ input ∈ inputs, Undisturbed size input) →
      (∀ k < inputs.length, (start.polls footer (inputs.take k)).state = bodyState isRequest ∧
        (start.polls footer (inputs.take k)).freed = false) →
      ∃ B S : List UInt8,
        (start.polls footer inputs).root.received (bodyFrom isRequest) =
          start.root.received (bodyFrom isRequest) ++ B ∧
        (start.polls footer inputs).root.sent (bodyTo isRequest) = start.root.sent (bodyTo isRequest) ++ S ∧
        S <+: B ∧
        (start.polls footer inputs).root.str.length ≤ MAX_BODY_BUFFER ∧
        (∀ n, size = .known n → B.length ≤ min n MAX_LENGTH) ∧
        ((start.polls footer inputs).state ≠ bodyState isRequest ∨ (start.polls footer inputs).freed →
          S = B ∧ ∀ n, size = .known n → B.length = min n MAX_LENGTH) := by
  intro start
  have hstart : Relaying start.root isRequest size [] [] start :=
    poll_headersSent footer hstate hfreed hr hbody hsize hsent
  refine ⟨hstart.state, hstart.freed, ?_, ?_⟩
  · have := hstart.split
    rwa [nil_append, eq_comm] at this
  intro inputs hin hbody
  obtain ⟨B, ⟨S, h⟩ | h⟩ := polls_relaying footer inputs hin hbody hstart
  · refine ⟨B, S, h.received, h.sent, ⟨_, h.split.symm⟩, h.bound, ?_, ?_⟩
    · rintro n rfl
      exact h.remaining.2.1
    · rintro (hl | hl)
      · exact absurd h.state hl
      · rw [h.freed] at hl
        cases hl
  · refine ⟨B, B, h.received, h.sent, prefix_rfl, by simp [h.str], ?_, fun _ => ⟨rfl, h.length⟩⟩
    intro n hn
    exact (h.length n hn).le

/-- A connection that has sent the headers of a request up to the last byte. -/
def sendingHeaders (method : String) : RewriteConnection :=
  { state := .requestSend
    root := { str := [10] }
    request := some { reqType := HttpRequest.typeOfMethod (cstring method)
                      reqMethod := cstring method
                      reqUri := cstring "/"
                      reqVersion := cstring "HTTP/1.1"
                      headers := [⟨cstring "content-length", cstring "5"⟩] } }

/-- Both sockets are ready; the proxy takes one byte. -/
def oneByte (recv : List RecvAnswer) : PollInput :=
  { hasSlirp := true, hasProxy := true, recv := recv, send := [.accept 1] }

theorem body_relay_post :
    ((sendingHeaders "POST").poll [] (oneByte [])).state = .requestBody ∧
    ∃ B S : List UInt8, ∃ conn, conn = ((sendingHeaders "POST").poll [] (oneByte [])).polls []
        [oneByte [.bytes [1, 2]], oneByte [.bytes [3], .bytes [4, 5, 6]]] ∧
      conn.root.received .slirp = B ∧ conn.root.sent .proxy = 10 :: S ∧ S <+: B ∧ B.length ≤ 5 := by
  have h := body_relay [] (sendingHeaders "POST") true (.known 5) _ rfl rfl rfl (.inl (by decide +kernel))
    ⟨by decide, cstring "5", by decide +kernel, by decide +kernel, by decide +kernel, by decide +kernel⟩
    (oneByte []) (by decide +kernel)
  obtain ⟨hstate, -, -, hrun⟩ := h
  refine ⟨hstate, ?_⟩
  obtain ⟨B, S, hB, hS, hpre, -, hlen, -⟩ := hrun [oneByte [.bytes [1, 2]], oneByte [.bytes [3], .bytes [4, 5, 6]]]
    (by
      intro input hin
      simp only [mem_cons, not_mem_nil, or_false] at hin
      rcases hin with rfl | rfl <;> exact ⟨by decide, fun _ => by decide, by decide, by decide⟩)
    (by decide +kernel)
  exact ⟨B, S, _, rfl, hB, hS, hpre, (hlen 5 rfl).trans (by decide)⟩

/-- A GET request with a `Content-Length` of 5 has no body here: once its headers are sent the
reply is next, and none of the 5 bytes waiting at the other socket is read. -/
theorem getBody_notRead :
    (sendingHeaders "GET").request.bind (·.findHeader "Content-Length") = some (cstring "5") ∧
    let conn := (sendingHeaders "GET").poll [] (oneByte [])
    let conn' := conn.poll [] { hasSlirp := true, hasProxy := false, recv := [.bytes [1, 2, 3, 4, 5]] }
    conn.state = .replyFirstLine ∧ conn'.state = .replyFirstLine ∧ conn'.root.received .slirp = [] := by
  decide +kernel

end RewriteConnection

end Emulator.Proxy
