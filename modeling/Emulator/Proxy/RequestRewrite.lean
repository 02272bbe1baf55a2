import Emulator.Proxy.Chunked

/-!
# Rewritten requests (`rewrite_connection_rewrite_request`)

A request is read into the buffer of a connection line by line, and the lines come in whatever
parts the socket has ready. When the empty line is there the buffer is used once more, for the
request that is sent to the proxy.

* `Reading`: the part of a line in the buffer and the bytes still to come are the lines that are
  left, and these complete the request. `poll_reading` is the step.
* `poll_fresh`: a request always begins with an empty buffer.
* `request_rewritten`: what is built depends on the bytes of the request and the footer only.
-/

namespace Emulator.Proxy

open List Option

/-! ## Requests as they are sent -/

/-- The bytes of lines that end with LF or CRLF and have no NUL. -/
inductive Lines : List (List UInt8) → List UInt8 → Prop
  | nil : Lines [] []
  | lf {text bytes : List UInt8} {texts : List (List UInt8)} (nul : 0 ∉ text) (lf : 10 ∉ text)
      (cr : text.getLast? ≠ some 13) (rest : Lines texts bytes) : Lines (text :: texts) (text ++ 10 :: bytes)
  | crlf {text bytes : List UInt8} {texts : List (List UInt8)} (nul : 0 ∉ text) (lf : 10 ∉ text)
      (rest : Lines texts bytes) : Lines (text :: texts) (text ++ 13 :: 10 :: bytes)

/-- A header: the line with its key, and the lines that continue it. -/
structure HeaderText where
  key : List UInt8
  value : List UInt8
  continuations : List (List UInt8)
  key_colon : 58 ∉ key
  key_blank : key.head? ≠ some 32 ∧ key.head? ≠ some 9
  continued : ∀ line ∈ continuations, line.head? = some 32 ∨ line.head? = some 9

namespace HeaderText

def lines (h : HeaderText) : List (List UInt8) := (h.key ++ 58 :: h.value) :: h.continuations

/-- The value without its leading spaces, and the continuation lines. -/
def content (h : HeaderText) : List UInt8 := h.value.dropWhile (· = 32) ++ h.continuations.flatten

end HeaderText

structure RequestText where
  method : List UInt8
  uri : List UInt8
  version : List UInt8
  headers : List HeaderText
  method_space : 32 ∉ method
  uri_space : 32 ∉ uri
  version_space : 32 ∉ version

namespace RequestText

def firstLine (r : RequestText) : List UInt8 := r.method ++ 32 :: (r.uri ++ 32 :: r.version)

def headerLines (r : RequestText) : List (List UInt8) := r.headers.flatMap HeaderText.lines

/-- The lines of a request; the last one is empty. -/
def lines (r : RequestText) : List (List UInt8) := r.firstLine :: (r.headerLines ++ [[]])

/-- The first header with the key `Host`, in any case. -/
def host (r : RequestText) : Option (List UInt8) :=
  (r.headers.find? fun h => strcaseeq h.key (cstring "Host")).map HeaderText.content

/-- The URI in the rewritten request. -/
def target (r : RequestText) : List UInt8 :=
  if r.uri.head? = some 47 then r.host.elim r.uri fun host => cstring "http://" ++ host ++ r.uri else r.uri

/-- The bytes for the proxy. -/
def rewritten (footer : List UInt8) (r : RequestText) : List UInt8 :=
  r.method ++ cstring " " ++ r.target ++ cstring " " ++ r.version ++ cstring "\r\n" ++
    r.headers.flatMap (fun h => h.key ++ cstring ": " ++ h.content ++ cstring "\r\n") ++ footer

/-- The request that is built from the lines. -/
def parsed (r : RequestText) : HttpRequest :=
  { HttpRequest.alloc r.method r.uri r.version with headers := r.headers.map fun h => ⟨h.key, h.content⟩ }

end RequestText

/-! ## Tokens -/

theorem strsep_append {delim : UInt8} {a : List UInt8} (h : delim ∉ a) (b : List UInt8) :
    strsep delim (a ++ delim :: b) = (a, some b) := by
  have hne : ∀ x ∈ a, decide (x ≠ delim) = true := fun x hx => decide_eq_true fun he => h (he ▸ hx)
  unfold strsep
  rw [takeWhile_append_of_pos hne, dropWhile_append_of_pos hne]
  simp

theorem strsep_last {delim : UInt8} {a : List UInt8} (h : delim ∉ a) : strsep delim a = (a, none) := by
  have hne : ∀ x ∈ a, decide (x ≠ delim) = true := fun x hx => decide_eq_true fun he => h (he ▸ hx)
  unfold strsep
  rw [takeWhile_eq_self_iff.mpr hne, if_neg h]

/-- A list is split at the first occurrence of an element in one way only. -/
theorem first_unique {c : UInt8} {a b x y : List UInt8} (ha : c ∉ a) (hb : c ∉ b) (h : a ++ c :: x = b ++ c :: y) :
    a = b ∧ x = y := by
  have hsep := strsep_append ha x
  rw [h, strsep_append hb y] at hsep
  obtain ⟨h₁, h₂⟩ := Prod.mk.inj hsep
  exact ⟨h₁.symm, (Option.some.inj h₂).symm⟩

/-! ## The headers of a request -/

/-- A continuation line goes to the last header. -/
theorem addHeaderLine_continuation {r : HttpRequest} {l : List HttpHeader} {h : HttpHeader} (hl : r.headers = l ++ [h])
    {line : List UInt8} (hline : line.head? = some 32 ∨ line.head? = some 9) :
    RewriteConnection.addHeaderLine r line = some { r with headers := l ++ [{ h with value := h.value ++ line }] } := by
  unfold RewriteConnection.addHeaderLine HttpRequest.addToLastHeader
  rw [if_pos hline, hl]
  simp

theorem addHeaderLine_first (r : HttpRequest) (h : HeaderText) :
    RewriteConnection.addHeaderLine r (h.key ++ 58 :: h.value) =
      some (r.addHeader h.key (h.value.dropWhile (· = 32))) := by
  have hblank : ¬((h.key ++ 58 :: h.value).head? = some 32 ∨ (h.key ++ 58 :: h.value).head? = some 9) := by
    have hkey := h.key_blank
    cases hk : h.key with
    | nil => simp
    | cons c key =>
      rw [hk] at hkey
      simpa [not_or] using hkey
  unfold RewriteConnection.addHeaderLine
  rw [if_neg hblank, strsep_append h.key_colon]

theorem foldlM_continuations (lines : List (List UInt8))
    (hlines : ∀ line ∈ lines, line.head? = some 32 ∨ line.head? = some 9) (r : HttpRequest) (l : List HttpHeader)
    (h : HttpHeader) (hl : r.headers = l ++ [h]) :
    lines.foldlM RewriteConnection.addHeaderLine r =
      some { r with headers := l ++ [{ h with value := h.value ++ lines.flatten }] } := by
  induction lines generalizing r h with
  | nil => simp [← hl]
  | cons line lines ih =>
    have hline := addHeaderLine_continuation hl (hlines line (by simp))
    have hrest := ih (fun x hx => hlines x (by simp [hx]))
      { r with headers := l ++ [{ h with value := h.value ++ line }] } { h with value := h.value ++ line } rfl
    rw [foldlM_cons, hline, bind_eq_bind, bind_some, hrest]
    simp

/-- The lines of a header add it to the request. -/
theorem foldlM_lines (r : HttpRequest) (h : HeaderText) :
    h.lines.foldlM RewriteConnection.addHeaderLine r = some (r.addHeader h.key h.content) := by
  unfold HeaderText.lines
  rw [foldlM_cons, addHeaderLine_first, bind_eq_bind, bind_some,
    foldlM_continuations _ h.continued _ r.headers _ rfl]
  rfl

theorem foldlM_headers (headers : List HeaderText) (r : HttpRequest) :
    (headers.flatMap HeaderText.lines).foldlM RewriteConnection.addHeaderLine r =
      some { r with headers := r.headers ++ headers.map fun h => ⟨h.key, h.content⟩ } := by
  induction headers generalizing r with
  | nil => simp
  | cons h headers ih =>
    rw [flatMap_cons, foldlM_append, foldlM_lines, bind_eq_bind, bind_some, ih]
    simp [HttpRequest.addHeader]

theorem HeaderText.lines_ne_nil (h : HeaderText) : ∀ line ∈ h.lines, line ≠ [] := by
  unfold HeaderText.lines
  refine forall_mem_cons.mpr ⟨by simp, ?_⟩
  rintro line hline rfl
  rcases h.continued [] hline with h | h <;> cases h

theorem RequestText.headerLines_ne_nil (r : RequestText) : ∀ line ∈ r.headerLines, line ≠ [] := by
  intro line hline
  obtain ⟨h, -, hline⟩ := mem_flatMap.mp hline
  exact h.lines_ne_nil line hline

/-- The request built from the lines is rewritten as it should be. -/
theorem rewriteRequest_parsed (footer : List UInt8) {conn : RewriteConnection} {r : RequestText}
    (hr : conn.request = some r.parsed) :
    (conn.rewriteRequest footer).root.str = r.rewritten footer ∧ (conn.rewriteRequest footer).root.strPos = 0 := by
  have hhost : r.parsed.findHeader "Host" = r.host := by
    unfold HttpRequest.findHeader httpHeaderListFind RequestText.host RequestText.parsed
    rw [List.find?_map, Option.map_map]
    rfl
  have hheaders : r.parsed.headers.flatMap RewriteConnection.formatHeader =
      r.headers.flatMap fun h => h.key ++ cstring ": " ++ h.content ++ cstring "\r\n" := by
    unfold RequestText.parsed
    rw [flatMap_map]
    rfl
  have huri : r.parsed.reqUri = r.uri := rfl
  unfold RewriteConnection.rewriteRequest RequestText.rewritten RequestText.target
  rw [hr, ← hheaders, ← hhost]
  refine ⟨?_, rfl⟩
  dsimp only
  rw [huri]
  split_ifs
  · cases r.parsed.findHeader "Host" <;> rfl
  · rfl

/-! ## Reading lines -/

/-- The first line: its bytes up to the LF, and what `proxy_connection_receive_line` makes of it. -/
theorem Lines.first {text bytes : List UInt8} {texts : List (List UInt8)} (h : Lines (text :: texts) bytes) :
    0 ∉ text ∧ ∃ raw rest, bytes = raw ++ 10 :: rest ∧ 10 ∉ raw ∧ ProxyConnection.chomp (raw ++ [10]) = text ∧
      Lines texts rest := by
  cases h with
  | @lf _ bytes _ nul lf cr rest =>
    refine ⟨nul, text, bytes, rfl, lf, ?_, rest⟩
    simp [ProxyConnection.chomp, cr]
  | @crlf _ bytes _ nul lf rest =>
    refine ⟨nul, text ++ [13], bytes, by simp, by simp [lf], ?_, rest⟩
    simp [ProxyConnection.chomp]

theorem Lines.nil_eq {bytes : List UInt8} (h : Lines [] bytes) : bytes = [] := by
  cases h
  rfl

/-- What is in the buffer and what is still to come are the lines that are left. -/
structure Pending (texts : List (List UInt8)) (str rest : List UInt8) : Prop where
  opened : 10 ∉ str
  lines : Lines texts (str ++ rest)

theorem Pending.rest_ne_nil {texts : List (List UInt8)} {text str rest : List UInt8}
    (h : Pending (text :: texts) str rest) : rest ≠ [] := by
  rintro rfl
  obtain ⟨-, raw, more, hsplit, -⟩ := h.lines.first
  rw [append_nil] at hsplit
  exact h.opened (by simp [hsplit])

/-- The socket has bytes or blocks. -/
structure Blocks (answers : List RecvAnswer) : Prop where
  error : .error ∉ answers
  closed : .bytes [] ∉ answers

theorem Blocks.tail {a : RecvAnswer} {answers : List RecvAnswer} (h : Blocks (a :: answers)) : Blocks answers :=
  ⟨fun hmem => h.error (mem_cons_of_mem _ hmem), fun hmem => h.closed (mem_cons_of_mem _ hmem)⟩

/-- A byte is there. -/
def HasByte (answers : List RecvAnswer) : Prop := ∃ c b, answers.head? = some (.bytes (c :: b))

namespace RewriteConnection

variable {conn : RewriteConnection} {footer : List UInt8} {answers : List RecvAnswer} {texts : List (List UInt8)}
  {text rest : List UInt8} {r : RequestText} {fd : Fd}

/-- A line is read up to its LF, or up to where the socket blocks. -/
theorem receiveLine_spec (fd : Fd) (answers : List RecvAnswer) (root : ProxyConnection) :
    ∃ got ret root' answers', root.receiveLine fd answers = (ret, root', answers') ∧
      root'.received fd = root.received fd ++ got ∧ (HasByte answers → got ≠ []) ∧
      (Blocks answers → Blocks answers' ∧
        (ret = .needMore ∧ root'.str = root.str ++ got ∧ 10 ∉ got ∨
          ret = .completed ∧ ∃ g, got = g ++ [10] ∧ 10 ∉ g ∧
            root'.str = ProxyConnection.chomp (root.str ++ g ++ [10]))) := by
  induction answers generalizing root with
  | nil => exact ⟨[], _, _, _, rfl, by simp, by simp [HasByte], fun h => ⟨h, .inl ⟨rfl, by simp, by simp⟩⟩⟩
  | cons a answers ih =>
    cases a with
    | again => exact ⟨[], _, _, _, rfl, by simp, by simp [HasByte], fun h => ⟨h.tail, .inl ⟨rfl, by simp, by simp⟩⟩⟩
    | error => exact ⟨[], _, _, _, rfl, by simp, by simp [HasByte], fun h => absurd (mem_cons_self ..) h.1⟩
    | bytes b =>
      cases b with
      | nil => exact ⟨[], _, _, _, rfl, by simp, by simp [HasByte], fun h => absurd (mem_cons_self ..) h.2⟩
      | cons c b =>
        unfold ProxyConnection.receiveLine
        dsimp only
        by_cases hc : c = 10
        · subst hc
          refine ⟨[10], _, _, _, rfl, by simp [ProxyConnection.logReceived], by simp, fun h =>
            ⟨h.tail, .inr ⟨rfl, [], ?_⟩⟩⟩
          simp [ProxyConnection.logReceived]
        · rw [if_neg hc]
          obtain ⟨got, ret, root', answers', heq, hlog, -, hres⟩ :=
            ih ({ root with str := root.str ++ [c] }.logReceived fd [c])
          refine ⟨c :: got, ret, root', answers', heq, ?_, by simp, fun h => ⟨(hres h.tail).1, ?_⟩⟩
          · rw [hlog]
            simp [ProxyConnection.logReceived]
          · rcases (hres h.tail).2 with ⟨hret, hstr, hlf⟩ | ⟨hret, g, rfl, hlf, hstr⟩
            · refine .inl ⟨hret, ?_, by simp [Ne.symm hc, hlf]⟩
              rw [hstr]
              simp [ProxyConnection.logReceived]
            · refine .inr ⟨hret, c :: g, rfl, by simp [Ne.symm hc, hlf], ?_⟩
              rw [hstr]
              simp [ProxyConnection.logReceived]

/-- If the bytes that were read are the next ones of the lines, the first of these is in the
buffer, or still pending. -/
theorem receiveLine_pending (fd : Fd) (hblocks : Blocks answers) {root : ProxyConnection}
    (h : Pending (text :: texts) root.str rest) :
    ∃ got ret root' answers', root.receiveLine fd answers = (ret, root', answers') ∧ Blocks answers' ∧
      root'.received fd = root.received fd ++ got ∧
      ∀ rest', rest = got ++ rest' → ret = .needMore ∧ Pending (text :: texts) root'.str rest' ∨
        ret = .completed ∧ cstr root'.str = text ∧ Lines texts rest' := by
  obtain ⟨got, ret, root', answers', heq, hlog, -, hres⟩ := receiveLine_spec fd answers root
  obtain ⟨hb, hres⟩ := hres hblocks
  refine ⟨got, ret, root', answers', heq, hb, hlog, ?_⟩
  rintro rest' rfl
  rcases hres with ⟨hret, hstr, hlf⟩ | ⟨hret, g, rfl, hlf, hstr⟩
  · refine .inl ⟨hret, ?_, ?_⟩
    · rw [hstr]
      simp [h.opened, hlf]
    · rw [hstr, append_assoc]
      exact h.lines
  · obtain ⟨hnul, raw, more, hsplit, hraw, hchomp, hmore⟩ := h.lines.first
    have hsplit : (root.str ++ g) ++ 10 :: rest' = raw ++ 10 :: more := by simpa using hsplit
    obtain ⟨hline, rfl⟩ := first_unique (by simp [h.opened, hlf]) hraw hsplit
    exact .inr ⟨hret, by rw [hstr, hline, hchomp, cstr_eq_self hnul], hmore⟩

/-- What the first line has read stays in the log. -/
theorem readHeadersLoop_log (fd : Fd) (n : ℕ) (conn : RewriteConnection) (answers : List RecvAnswer) :
    (conn.root.receiveLine fd answers).2.1.received fd <+:
      (readHeadersLoop fd (n + 1) conn answers).2.1.root.received fd := by
  induction n generalizing conn answers with
  | zero =>
    unfold readHeadersLoop
    generalize conn.root.receiveLine fd answers = res
    obtain ⟨ret, root, answers'⟩ := res
    cases ret with
    | error => exact prefix_rfl
    | needMore => exact prefix_rfl
    | completed =>
      dsimp only
      split_ifs
      · exact prefix_rfl
      · cases conn.request.bind (addHeaderLine · (cstr root.str)) <;> exact prefix_rfl
  | succ n ih =>
    rw [readHeadersLoop]
    generalize conn.root.receiveLine fd answers = res
    obtain ⟨ret, root, answers'⟩ := res
    cases ret with
    | error => exact prefix_rfl
    | needMore => exact prefix_rfl
    | completed =>
      dsimp only
      split_ifs
      · exact prefix_rfl
      cases conn.request.bind (addHeaderLine · (cstr root.str)) with
      | none => exact prefix_rfl
      | some req =>
        obtain ⟨got, ret', root', rest', heq, hlog, -⟩ := receiveLine_spec fd answers' { root with str := [] }
        have hnext := ih { conn with root := { root with str := [] }, request := some req } answers'
        rw [heq] at hnext
        refine List.IsPrefix.trans ?_ hnext
        exact ⟨got, hlog.symm⟩

/-- The header lines that are left complete the request. -/
structure HeadersPending (final : HttpRequest) (rest : List UInt8) (conn : RewriteConnection)
    (lines : List (List UInt8)) (req : HttpRequest) : Prop where
  request : conn.request = some req
  ne_nil : ∀ line ∈ lines, line ≠ []
  final : lines.foldlM addHeaderLine req = some final
  pending : Pending (lines ++ [[]]) conn.root.str rest

variable {part rest' : List UInt8}

theorem HeadersPending.readLoop (n : ℕ) {lines : List (List UInt8)} {req final : HttpRequest}
    (h : HeadersPending final rest conn lines req) (hblocks : Blocks answers)
    (hlog : (readHeadersLoop fd n conn answers).2.1.root.received fd = conn.root.received fd ++ part)
    (hrest : rest = part ++ rest') :
    ∃ ret conn' answers', readHeadersLoop fd n conn answers = (ret, conn', answers') ∧
      ((ret = .needMore ∧ ∃ lines' req', HeadersPending final rest' conn' lines' req') ∨
        ret = .completed ∧ conn'.request = some final ∧ rest' = []) := by
  induction n generalizing conn answers lines req rest part with
  | zero =>
    have hpart : part = [] := by simpa [readHeadersLoop] using hlog
    refine ⟨_, _, _, rfl, .inl ⟨rfl, lines, req, ?_⟩⟩
    rw [hpart, nil_append] at hrest
    exact hrest ▸ h
  | succ n ih =>
    -- the line at the front, and what is read behind it
    obtain ⟨text, texts, htexts⟩ : ∃ text texts, lines ++ [[]] = text :: texts := by
      cases lines with
      | nil => exact ⟨_, _, rfl⟩
      | cons line lines => exact ⟨_, _, rfl⟩
    have hpending := h.pending
    rw [htexts] at hpending
    obtain ⟨got, ret, root', answers', heq, hb, hgot, hres⟩ := receiveLine_pending fd hblocks hpending
    have hmore := readHeadersLoop_log fd n conn answers
    rw [heq, hlog, hgot, prefix_append_right_inj] at hmore
    obtain ⟨more, rfl⟩ := hmore
    unfold readHeadersLoop at hlog ⊢
    rw [heq] at hlog ⊢
    rw [append_assoc] at hrest
    rcases hres (more ++ rest') hrest with ⟨rfl, hpend⟩ | ⟨rfl, hline, hafter⟩
    · have hnil : more = [] := by
        have : root'.received fd = conn.root.received fd ++ (got ++ more) := hlog
        rw [hgot] at this
        simpa using this
      rw [← htexts, hnil, nil_append] at hpend
      exact ⟨_, _, _, rfl, .inl ⟨rfl, lines, req, h.request, h.ne_nil, h.final, hpend⟩⟩
    dsimp only at hlog ⊢
    rw [hline] at hlog ⊢
    cases lines with
    | nil =>
      obtain ⟨rfl, rfl⟩ := List.cons.inj htexts
      have hnil : more = [] := by
        rw [if_pos rfl] at hlog
        have : root'.received fd = conn.root.received fd ++ (got ++ more) := hlog
        rw [hgot] at this
        simpa using this
      rw [if_pos rfl]
      have hfinal : req = final := Option.some.inj h.final
      refine ⟨_, _, _, rfl, .inr ⟨rfl, ?_, ?_⟩⟩
      · rw [← hfinal]
        exact h.request
      · rw [hnil] at hafter
        exact hafter.nil_eq
    | cons line lines =>
      obtain ⟨rfl, rfl⟩ := List.cons.inj htexts
      have hne := h.ne_nil line (by simp)
      have hfold := h.final
      rw [foldlM_cons] at hfold
      rw [if_neg hne, h.request] at hlog ⊢
      dsimp only [bind_some] at hlog ⊢
      cases hadd : addHeaderLine req line with
      | none =>
        rw [hadd] at hfold
        cases hfold
      | some req' =>
        rw [hadd] at hfold hlog
        dsimp only at hlog ⊢
        have hkeep : HeadersPending final (more ++ rest')
            { conn with root := { root' with str := [] }, request := some req' } lines req' :=
          ⟨rfl, fun x hx => h.ne_nil x (by simp [hx]), hfold, ⟨by simp, hafter⟩⟩
        refine ih hkeep hb ?_ rfl
        rw [hlog, hgot, append_assoc]

/-! ## One poll -/

/-- The connection has read a request up to `rest`. -/
structure Reading (r : RequestText) (rest : List UInt8) (conn : RewriteConnection) : Prop where
  freed : conn.freed = false
  lines : conn.state = .requestFirstLine ∧ Pending r.lines conn.root.str rest ∨
    conn.state = .requestHeaders ∧ ∃ lines req, HeadersPending r.parsed rest conn lines req

/-- The rewritten request is in the buffer, to be sent. -/
structure Rewritten (footer : List UInt8) (r : RequestText) (conn : RewriteConnection) : Prop where
  freed : conn.freed = false
  state : conn.state = .requestSend
  str : conn.root.str = r.rewritten footer
  strPos : conn.root.strPos = 0

theorem readRequest_log (conn : RewriteConnection) (answers : List RecvAnswer) :
    (conn.readRequest answers).2.root.received = (conn.root.receiveLine .slirp answers).2.1.received := by
  unfold readRequest
  generalize conn.root.receiveLine .slirp answers = res
  obtain ⟨ret, root, rest⟩ := res
  cases ret with
  | completed =>
    dsimp only
    split
    · rfl
    split
    · rfl
    split_ifs <;> rfl
  | error => rfl
  | needMore => rfl

/-- The first line is read: the headers are next. -/
theorem readRequest_pending (hblocks : Blocks answers)
    (h : Pending r.lines conn.root.str rest)
    (hlog : (conn.readRequest answers).2.root.received .slirp = conn.root.received .slirp ++ part)
    (hrest : rest = part ++ rest') :
    ∃ ret root request, conn.readRequest answers = (ret, { conn with root := root, request := request }) ∧
      (ret = .needMore ∧ Pending r.lines root.str rest' ∨
        ret = .completed ∧ ∃ req,
          HeadersPending r.parsed rest' { conn with root := root, request := request } r.headerLines req) := by
  obtain ⟨got, ret, root', answers', heq, -, hgot, hres⟩ := receiveLine_pending .slirp hblocks h
  have hpart : got = part := by
    rw [readRequest_log, heq, hgot] at hlog
    simpa using hlog
  subst hpart
  unfold readRequest
  rw [heq]
  rcases hres rest' hrest with ⟨rfl, hpend⟩ | ⟨rfl, hline, hafter⟩
  · exact ⟨_, root', conn.request, rfl, .inl ⟨rfl, hpend⟩⟩
  · have hmethod : strsep 32 (cstr root'.str) = (r.method, some (r.uri ++ 32 :: r.version)) := by
      rw [hline]
      exact strsep_append r.method_space _
    dsimp only
    rw [hmethod]
    dsimp only
    rw [strsep_append r.uri_space]
    dsimp only
    rw [strsep_last r.version_space]
    refine ⟨_, root'.rewind, some (.alloc r.method r.uri r.version), rfl, .inr ⟨rfl, _, rfl, ?_, ?_, ?_⟩⟩
    · exact r.headerLines_ne_nil
    · exact foldlM_headers r.headers _
    · exact ⟨by simp [ProxyConnection.rewind], hafter⟩

theorem rewriteRequest_frame (footer : List UInt8) (conn : RewriteConnection) :
    (conn.rewriteRequest footer).root.received = conn.root.received ∧
      (conn.rewriteRequest footer).freed = conn.freed := by
  unfold rewriteRequest
  cases conn.request <;> exact ⟨rfl, rfl⟩

/-- **One poll of a connection that reads a request.** The parts that are read add up to its
bytes, and with the last one the request is rewritten. -/
theorem poll_reading {input : PollInput} (h : Reading r rest conn) (hblocks : Blocks input.recv)
    (hlog : (conn.poll footer input).root.received .slirp = conn.root.received .slirp ++ part)
    (hrest : rest = part ++ rest') :
    Reading r rest' (conn.poll footer input) ∨ rest' = [] ∧ Rewritten footer r (conn.poll footer input) := by
  have hidle : conn.poll footer input = conn → Reading r rest' (conn.poll footer input) := by
    intro hkeep
    rw [hkeep] at hlog ⊢
    have hnil : part = [] := by simpa using hlog
    rw [hnil, nil_append] at hrest
    exact hrest ▸ h
  cases hready : input.hasSlirp with
  | false =>
    refine .inl (hidle ?_)
    unfold poll pollState
    rw [h.freed]
    rcases h.lines with ⟨hstate, -⟩ | ⟨hstate, -⟩ <;> simp [hstate, hready, idle]
  | true =>
    unfold poll pollState at hlog ⊢
    rw [h.freed] at hlog ⊢
    rcases h.lines with ⟨hstate, hpend⟩ | ⟨hstate, lines, req, hpend⟩
    · simp only [hstate, hready, Bool.false_eq_true, ↓reduceIte] at hlog ⊢
      have hread : (conn.readRequest input.recv).2.root.received .slirp = conn.root.received .slirp ++ part := by
        revert hlog
        rcases conn.readRequest input.recv with ⟨ret, conn'⟩
        cases ret <;> exact id
      obtain ⟨ret, root, request, heq, ⟨rfl, hp⟩ | ⟨rfl, req, hp⟩⟩ := readRequest_pending hblocks hpend hread hrest
      · rw [heq]
        exact .inl ⟨h.freed, .inl ⟨hstate, hp⟩⟩
      · rw [heq]
        exact .inl ⟨h.freed, .inr ⟨rfl, _, req, hp.request, hp.ne_nil, hp.final, hp.pending⟩⟩
    · simp only [hstate, hready, Bool.false_eq_true, ↓reduceIte] at hlog ⊢
      have hread : (conn.readHeaders .slirp input.recv).2.1.root.received .slirp =
          conn.root.received .slirp ++ part := by
        revert hlog
        rcases conn.readHeaders .slirp input.recv with ⟨ret, conn', answers'⟩
        cases ret with
        | error => exact id
        | needMore => exact id
        | completed =>
          dsimp only
          rw [(rewriteRequest_frame footer conn').1]
          exact id
      have hframe := readHeadersLoop_eq .slirp (input.recv.length + 1) conn input.recv
      obtain ⟨ret, conn', answers', heq, hres⟩ := hpend.readLoop _ hblocks hread hrest
      have hkeep : conn'.state = conn.state ∧ conn'.freed = conn.freed := by
        rw [heq] at hframe
        obtain ⟨-, hframe⟩ := Prod.mk.inj hframe
        obtain ⟨rfl, -⟩ := Prod.mk.inj hframe
        exact ⟨rfl, rfl⟩
      have heq : conn.readHeaders .slirp input.recv = (ret, conn', answers') := heq
      rw [heq]
      rcases hres with ⟨rfl, lines', req', hp⟩ | ⟨rfl, hreq, hrest'⟩
      · exact .inl ⟨hkeep.2.trans h.freed, .inr ⟨hkeep.1.trans hstate, lines', req', hp⟩⟩
      · obtain ⟨hstr, hpos⟩ := rewriteRequest_parsed footer hreq
        have hfreed : (conn'.rewriteRequest footer).freed = false :=
          (rewriteRequest_frame footer conn').2.trans (hkeep.2.trans h.freed)
        exact .inr ⟨hrest', hfreed, rfl, hstr, hpos⟩

theorem Reading.rest_ne_nil (h : Reading r rest conn) : rest ≠ [] := by
  rcases h.lines with ⟨-, hpend⟩ | ⟨-, lines, req, hpend⟩
  · exact hpend.rest_ne_nil
  · have hp := hpend.pending
    cases lines with
    | nil => exact hp.rest_ne_nil
    | cons line lines => exact hp.rest_ne_nil

/-- A byte that is there is read. -/
theorem poll_hasByte {input : PollInput} (footer : List UInt8) (h : Reading r rest conn)
    (hready : input.hasSlirp = true) (hbyte : HasByte input.recv) :
    (conn.poll footer input).root.received .slirp ≠ conn.root.received .slirp := by
  obtain ⟨got, ret, root', answers', heq, hlog, hgot, -⟩ := receiveLine_spec .slirp input.recv conn.root
  have hgot := hgot hbyte
  have hgrow : ∀ log, root'.received .slirp <+: log → log ≠ conn.root.received .slirp := by
    rintro log ⟨more, rfl⟩ hsame
    rw [hlog] at hsame
    simp [hgot] at hsame
  apply hgrow
  unfold poll pollState
  rw [h.freed]
  rcases h.lines with ⟨hstate, -⟩ | ⟨hstate, -⟩
  · have hread : root'.received .slirp <+: (conn.readRequest input.recv).2.root.received .slirp := by
      rw [readRequest_log, heq]
    simp only [hstate, hready, Bool.false_eq_true, ↓reduceIte]
    revert hread
    rcases conn.readRequest input.recv with ⟨ret', conn'⟩
    cases ret' <;> exact id
  · have hread := readHeadersLoop_log .slirp input.recv.length conn input.recv
    rw [heq] at hread
    have hread : root'.received .slirp <+: (conn.readHeaders .slirp input.recv).2.1.root.received .slirp := hread
    simp only [hstate, hready, Bool.false_eq_true, ↓reduceIte]
    revert hread
    rcases conn.readHeaders .slirp input.recv with ⟨ret', conn', answers''⟩
    cases ret' with
    | error => exact id
    | needMore => exact id
    | completed =>
      dsimp only
      rw [(rewriteRequest_frame footer conn').1]
      exact id

/-! ## Where a request begins -/

theorem readChunk_state (conn : RewriteConnection) (fd : Fd) (answers : List RecvAnswer) :
    (conn.readChunk fd answers).2.state = conn.state := by
  unfold readChunk
  split_ifs
  · unfold readChunkTrailer
    split_ifs
    · rfl
    have hread := readHeaders_state { conn with parseChunkTrailer := true } fd answers
    generalize { conn with parseChunkTrailer := true }.readHeaders fd answers = res at hread ⊢
    obtain ⟨ret, conn', rest⟩ := res
    cases ret <;> exact hread
  · exact (receiveBody_frame _ _ _ _).1

theorem readChunkHeader_state (conn : RewriteConnection) (fd : Fd) (answers : List RecvAnswer) :
    (conn.readChunkHeader fd answers).2.1.state = conn.state := by
  unfold readChunkHeader
  by_cases hwait : (!conn.parseChunkHeader && conn.bodyHasData) = true
  · rw [if_pos hwait]
  rw [if_neg hwait]
  dsimp only
  generalize conn.root.receiveLine fd answers = res
  obtain ⟨ret, root, rest⟩ := res
  cases ret with
  | completed =>
    dsimp only
    split_ifs <;> rfl
  | error => rfl
  | needMore => rfl

theorem readBody_state (conn : RewriteConnection) (fd : Fd) (answers : List RecvAnswer) :
    (conn.readBody fd answers).2.state = conn.state := by
  unfold readBody
  by_cases hclosed : conn.bodyIsClosed = true
  · rw [if_pos hclosed]
  rw [if_neg hclosed]
  cases conn.bodyMode with
  | none => rfl
  | knownLength =>
    dsimp only
    split_ifs
    · rfl
    · exact (receiveBody_frame _ _ _ _).1
  | untilClose => exact (receiveBody_frame _ _ _ _).1
  | chunked =>
    by_cases hlength : conn.chunkLength < 0
    swap
    · rw [if_neg hlength]
      exact readChunk_state conn fd answers
    rw [if_pos hlength]
    have hheader := readChunkHeader_state conn fd answers
    generalize conn.readChunkHeader fd answers = res at hheader
    obtain ⟨ret, conn', rest⟩ := res
    cases ret with
    | some ret => exact hheader
    | none => exact (readChunk_state conn' fd rest).trans hheader

/-- A body is complete only when the buffer is empty. -/
theorem sendBody_completed {answers : List SendAnswer} (h : (conn.sendBody fd answers).1 = .completed) :
    (conn.sendBody fd answers).2.root.str = [] := by
  unfold sendBody at h ⊢
  split_ifs at h ⊢
  dsimp only at h ⊢
  generalize conn.root.send fd answers = res at h ⊢
  obtain ⟨ret, root⟩ := res
  dsimp only at h ⊢
  split_ifs at h ⊢ with herr hmore
  obtain rfl : ret = .completed := h
  have hmore : conn.bodyIsClosed = true ∧ root.str.length ≤ root.strPos := by simpa using hmore
  exact drop_eq_nil_of_le hmore.2

theorem pollBody_end (fromFd toFd : Fd) (hasFrom hasTo : Bool) (input : PollInput)
    (next : RewriteConnection → DataStatus × RewriteConnection) :
    (conn.pollBody fromFd toFd hasFrom hasTo input next).2.state = conn.state ∨
      ∃ c, c.root.str = [] ∧ conn.pollBody fromFd toFd hasFrom hasTo input next = next c := by
  unfold pollBody
  have hread : (if hasFrom then conn.readBody fromFd input.recv else (.needMore, conn)).2.state = conn.state := by
    split_ifs
    · exact readBody_state conn fromFd input.recv
    · rfl
  generalize (if hasFrom then conn.readBody fromFd input.recv else (.needMore, conn)) = res at hread
  obtain ⟨ret, conn₁⟩ := res
  dsimp only at hread ⊢
  split_ifs
  swap
  · exact .inl hread
  have hsend := (sendBody_frame conn₁ toFd input.send).1.trans hread
  have hdone := @sendBody_completed conn₁ toFd input.send
  generalize conn₁.sendBody toFd input.send = res at hsend hdone
  obtain ⟨ret', conn₂⟩ := res
  cases ret' with
  | completed => exact .inr ⟨conn₂, hdone rfl, rfl⟩
  | error => exact .inl hsend
  | needMore => exact .inl hsend

theorem getBodyLength_frame (conn : RewriteConnection) (isRequest : Bool) :
    (conn.getBodyLength isRequest).2.state = conn.state ∧
      ((conn.getBodyLength isRequest).1 = true → (conn.getBodyLength isRequest).2.root.str = []) := by
  have hclose : ∀ r, (conn.resetBody.untilCloseBody r).2.state = conn.state ∧
      (conn.resetBody.untilCloseBody r).2.root.str = [] := by
    intro r
    unfold untilCloseBody
    dsimp only
    split
    · split_ifs <;> exact ⟨rfl, rfl⟩
    · exact ⟨rfl, rfl⟩
  unfold getBodyLength
  cases conn.request with
  | none => exact ⟨rfl, by simp⟩
  | some r =>
    dsimp only
    by_cases hno : hasNoBody r isRequest = true
    · rw [if_pos hno]
      exact ⟨rfl, fun _ => rfl⟩
    rw [if_neg hno]
    cases r.findHeader "Content-Length" with
    | some contentLength =>
      dsimp only
      split_ifs
      · exact ⟨rfl, fun _ => rfl⟩
      · exact ⟨rfl, fun _ => rfl⟩
      · exact ⟨(hclose r).1, fun _ => (hclose r).2⟩
    | none =>
      dsimp only
      split_ifs
      · exact ⟨rfl, fun _ => rfl⟩
      · exact ⟨(hclose r).1, fun _ => (hclose r).2⟩

/-- The headers are sent: another state comes with an empty buffer. -/
theorem pollSend_end (isRequest : Bool) (answers : List SendAnswer) :
    (conn.pollSend fd isRequest answers).2.state = conn.state ∨
      (conn.pollSend fd isRequest answers).2.root.str = [] := by
  unfold pollSend
  generalize conn.root.send fd answers = res
  obtain ⟨ret, root⟩ := res
  cases ret with
  | error => exact .inl rfl
  | needMore => exact .inl rfl
  | completed =>
    have hbody := getBodyLength_frame { conn with root := root } isRequest
    dsimp only
    generalize { conn with root := root }.getBodyLength isRequest = res at hbody
    obtain ⟨found, conn'⟩ := res
    cases found with
    | false => exact .inl hbody.1
    | true =>
      dsimp only
      split_ifs <;> exact .inr (hbody.2 rfl)

/-- The states up to the first line of a request. -/
def Early (conn : RewriteConnection) : Prop :=
  conn.state = .connecting ∨ conn.state = .createSocketPair ∨ conn.state = .requestFirstLine

/-- The buffer is empty up to a request, and where a request begins. -/
theorem pollState_fresh (footer : List UInt8) (input : PollInput)
    (h : conn.Early → conn.state ≠ .requestFirstLine → conn.root.str = [])
    (hearly : (conn.pollState footer input).2.Early) :
    conn.state = .requestFirstLine ∧ (conn.pollState footer input).2.state = .requestFirstLine ∨
      (conn.pollState footer input).2.root.str = [] := by
  unfold pollState at hearly ⊢
  cases hstate : conn.state with
  | connecting =>
    have hnil := h (.inl hstate) (by simp [hstate])
    dsimp only
    split_ifs <;> exact .inr hnil
  | createSocketPair =>
    have hnil := h (.inr (.inl hstate)) (by simp [hstate])
    dsimp only
    split_ifs <;> exact .inr hnil
  | requestFirstLine =>
    refine .inl ⟨rfl, ?_⟩
    rw [hstate] at hearly
    have hread := readRequest_state conn input.recv
    generalize conn.readRequest input.recv = res at hread hearly
    obtain ⟨ret, conn'⟩ := res
    dsimp only at hread hearly ⊢
    split_ifs at hearly ⊢
    · cases ret <;> simp [Early, hread, hstate] at hearly ⊢
    · exact hstate
  | requestHeaders =>
    exfalso
    rw [hstate] at hearly
    have hread := readHeaders_state conn .slirp input.recv
    generalize conn.readHeaders .slirp input.recv = res at hread hearly
    obtain ⟨ret, conn', rest⟩ := res
    dsimp only at hread hearly
    split_ifs at hearly
    · cases ret <;> simp [Early, hread, hstate] at hearly
    · simp [Early, idle, hstate] at hearly
  | requestSend =>
    rw [hstate] at hearly
    dsimp only at hearly ⊢
    split_ifs at hearly ⊢
    · rcases @pollSend_end conn .proxy true input.send with hkeep | hnil
      · simp [Early, hkeep, hstate] at hearly
      · exact .inr hnil
    · simp [Early, idle, hstate] at hearly
  | requestBody =>
    rw [hstate] at hearly
    rcases @pollBody_end conn .slirp .proxy input.hasSlirp input.hasProxy input requestBodySent with hkeep | ⟨c,
      hnil, hnext⟩
    · simp [Early, hkeep, hstate] at hearly
    · rw [hnext]
      exact .inr hnil
  | replyFirstLine =>
    exfalso
    rw [hstate] at hearly
    have hread := readReply_state conn input.recv
    generalize conn.readReply input.recv = res at hread hearly
    obtain ⟨ret, conn'⟩ := res
    dsimp only at hread hearly
    split_ifs at hearly
    · cases ret <;> simp [Early, hread, hstate] at hearly
    · simp [Early, idle, hstate] at hearly
  | replyHeaders =>
    exfalso
    rw [hstate] at hearly
    have hread := readHeaders_state conn .proxy input.recv
    generalize conn.readHeaders .proxy input.recv = res at hread hearly
    obtain ⟨ret, conn', rest⟩ := res
    dsimp only at hread hearly
    split_ifs at hearly
    · cases ret <;> simp [Early, hread, hstate] at hearly
    · simp [Early, idle, hstate] at hearly
  | replySend =>
    rw [hstate] at hearly
    dsimp only at hearly ⊢
    split_ifs at hearly ⊢
    · rcases @pollSend_end conn .slirp false input.send with hkeep | hnil
      · simp [Early, hkeep, hstate] at hearly
      · exact .inr hnil
    · simp [Early, idle, hstate] at hearly
  | replyBody =>
    rw [hstate] at hearly
    rcases @pollBody_end conn .proxy .slirp input.hasProxy input.hasSlirp input replyBodySent with hkeep | ⟨c,
      hnil, hnext⟩
    · simp [Early, hkeep, hstate] at hearly
    · rw [hnext]
      unfold replyBodySent
      split_ifs <;> exact .inr hnil

/-- What a connection is before the first poll, before or after `socket_connect` has succeeded. -/
def created (connected : Bool) : RewriteConnection := { state := if connected then .createSocketPair else .connecting }

theorem poll_fresh (footer : List UInt8) (input : PollInput)
    (h : conn.Early → conn.state ≠ .requestFirstLine → conn.root.str = [])
    (hearly : (conn.poll footer input).Early) :
    conn.state = .requestFirstLine ∧ (conn.poll footer input).state = .requestFirstLine ∨
      (conn.poll footer input).root.str = [] := by
  by_cases hfreed : conn.freed = true
  · have hkeep : conn.poll footer input = conn := by
      unfold poll
      rw [if_pos hfreed]
    rw [hkeep] at hearly ⊢
    by_cases hline : conn.state = .requestFirstLine
    · exact .inl ⟨hline, hline⟩
    · exact .inr (h hearly hline)
  · have hstep := pollState_fresh footer input h
    unfold poll at hearly ⊢
    rw [if_neg hfreed] at hearly ⊢
    generalize conn.pollState footer input = res at hstep hearly
    obtain ⟨ret, conn'⟩ := res
    cases ret <;> exact hstep hearly

/-- Up to the first request nothing has been read. -/
theorem polls_fresh (footer : List UInt8) (inputs : List PollInput)
    (h : conn.Early → conn.state ≠ .requestFirstLine → conn.root.str = []) :
    (conn.polls footer inputs).Early → (conn.polls footer inputs).state ≠ .requestFirstLine →
      (conn.polls footer inputs).root.str = [] := by
  induction inputs generalizing conn with
  | nil => exact h
  | cons input inputs ih =>
    apply ih
    intro hearly hne
    exact (poll_fresh footer input h hearly).resolve_left fun hline => hne hline.2

/-! ## A whole request -/

/-- The polls read these parts from the socket, which blocks behind each of them. -/
def ReadsParts (footer : List UInt8) : RewriteConnection → List PollInput → List (List UInt8) → Prop
  | _, [], [] => True
  | conn, input :: inputs, part :: parts =>
    Blocks input.recv ∧
      (conn.poll footer input).root.received .slirp = conn.root.received .slirp ++ part ∧
      ReadsParts footer (conn.poll footer input) inputs parts
  | _, [], _ :: _ => False
  | _, _ :: _, [] => False

theorem polls_reading {inputs : List PollInput} {parts : List (List UInt8)} {rest' : List UInt8}
    (h : Reading r rest conn) (hparts : ReadsParts footer conn inputs parts) (hrest : rest = parts.flatten ++ rest')
    (hlast : rest' = [] → parts.getLast? ≠ some []) :
    Reading r rest' (conn.polls footer inputs) ∨ rest' = [] ∧ Rewritten footer r (conn.polls footer inputs) := by
  induction inputs generalizing conn rest parts with
  | nil =>
    cases parts with
    | nil =>
      have hrest : rest = rest' := hrest
      exact .inl (hrest ▸ h)
    | cons part parts => exact hparts.elim
  | cons input inputs ih =>
    cases parts with
    | nil => exact hparts.elim
    | cons part parts =>
      obtain ⟨hblocks, hlog, hparts⟩ := hparts
      rw [flatten_cons, append_assoc] at hrest
      have hstep := poll_reading h hblocks hlog hrest
      cases parts with
      | nil =>
        cases inputs with
        | nil => exact hstep
        | cons input' inputs => exact hparts.elim
      | cons part' parts =>
        rw [List.getLast?_cons_cons] at hlast
        rcases hstep with hreading | ⟨hnil, -⟩
        · exact ih hreading hparts rfl hlast
        · -- the parts left are empty, the last one too
          obtain ⟨hflat, hnil⟩ := append_eq_nil_iff.mp hnil
          refine absurd ?_ (hlast hnil)
          rw [List.getLast?_eq_getLast_of_ne_nil (cons_ne_nil _ _), Option.some.injEq]
          exact flatten_eq_nil_iff.mp hflat _ (getLast_mem _)

/-- **Requests are rewritten without loss.** Take a connection in any run, and a poll after which
it is at the first line of a request. From there on, let the bytes of a request come in, in
whatever parts. As long as some are missing, the connection goes on reading, and reads a byte
where there is one. With the last part the buffer holds the rewritten request, which is made of
the bytes of this request and the footer only. -/
theorem request_rewritten (footer : List UInt8) (connected : Bool) (before : List PollInput) (input : PollInput)
    (start : RewriteConnection) (hstart : start = ((created connected).polls footer before).poll footer input)
    (hother : ((created connected).polls footer before).state ≠ .requestFirstLine)
    (hstate : start.state = .requestFirstLine) (hlive : start.freed = false)
    (r : RequestText) (bytes : List UInt8) (hbytes : Lines r.lines bytes)
    (inputs : List PollInput) (parts : List (List UInt8)) (hparts : ReadsParts footer start inputs parts) :
    (∀ rest, bytes = parts.flatten ++ rest → rest ≠ [] →
      (start.polls footer inputs).freed = false ∧
      ((start.polls footer inputs).state = .requestFirstLine ∨ (start.polls footer inputs).state = .requestHeaders) ∧
      ∀ next : PollInput, next.hasSlirp = true → HasByte next.recv →
        ((start.polls footer inputs).poll footer next).root.received .slirp ≠
          (start.polls footer inputs).root.received .slirp) ∧
    (bytes = parts.flatten → parts.getLast? ≠ some [] → Rewritten footer r (start.polls footer inputs)) := by
  -- the buffer is empty
  have hnil : start.root.str = [] := by
    have hinit : (created connected).Early → (created connected).state ≠ .requestFirstLine →
        (created connected).root.str = [] := fun _ _ => rfl
    have hearly : (((created connected).polls footer before).poll footer input).Early := .inr (.inr (hstart ▸ hstate))
    have hfresh := poll_fresh footer input (polls_fresh footer before hinit) hearly
    rw [hstart]
    exact hfresh.resolve_left fun hline => hother hline.1
  have hreading : Reading r bytes start := by
    refine ⟨hlive, .inl ⟨hstate, ?_, ?_⟩⟩
    · simp [hnil]
    · rwa [hnil]
  refine ⟨?_, ?_⟩
  · intro rest hrest hne
    obtain h | ⟨hnone, -⟩ := polls_reading hreading hparts hrest fun hnone => absurd hnone hne
    · refine ⟨h.freed, ?_, fun next hready hbyte => poll_hasByte footer h hready hbyte⟩
      exact h.lines.imp And.left And.left
    · exact absurd hnone hne
  · intro hall hlast
    have hrest : bytes = parts.flatten ++ [] := by rw [hall, append_nil]
    obtain h | ⟨-, h⟩ := polls_reading hreading hparts hrest fun _ => hlast
    · exact absurd rfl h.rest_ne_nil
    · exact h

/-- A request with a header in two lines. -/
def twoHeaders : RequestText where
  method := cstring "GET"
  uri := cstring "/x"
  version := cstring "HTTP/1.1"
  headers :=
    [⟨cstring "A", cstring "b", [cstring "\tc"], by decide +kernel, by decide +kernel, by decide +kernel⟩,
      ⟨cstring "hOST", cstring "  h", [], by decide +kernel, by decide +kernel, by decide +kernel⟩]
  method_space := by decide +kernel
  uri_space := by decide +kernel
  version_space := by decide +kernel

def slirpAnswers (recv : List RecvAnswer) : PollInput := { hasSlirp := true, hasProxy := false, recv := recv }

def proxyAnswers (recv : List RecvAnswer) : PollInput := { hasSlirp := false, hasProxy := true, recv := recv }

def versionFooter : List UInt8 := cstring "X: y\r\n\r\n"

/-- A request with another header, and its reply, up to the poll that sends the reply. -/
def earlierMessages : List PollInput :=
  [proxyAnswers [], slirpAnswers (typed "GET http://a/ HTTP/1.0\r\n"), slirpAnswers (typed "Old: 1\r\n\r\n"),
    { hasSlirp := false, hasProxy := true, send := [.accept 100] }, proxyAnswers (typed "HTTP/1.0 204 -\n"),
    proxyAnswers (typed "Old: 2\n\n")]

/-- The connection when that reply is sent. -/
def secondRequest : RewriteConnection :=
  ((created true).polls versionFooter earlierMessages).poll versionFooter
    { hasSlirp := true, hasProxy := false, send := [.accept 100] }

def twoHeadersInputs : List PollInput :=
  [slirpAnswers (typed "GET /x"), slirpAnswers (typed " HTTP/1.1\r\n"), slirpAnswers (typed "A:b\r"),
    slirpAnswers [], slirpAnswers (typed "\n\tc\nhOST:  h\n\n")]

def twoHeadersParts : List (List UInt8) :=
  [cstring "GET /x", cstring " HTTP/1.1\r\n", cstring "A:b\r", [], cstring "\n\tc\nhOST:  h\n\n"]

theorem twoHeaders_lines : Lines twoHeaders.lines twoHeadersParts.flatten := by
  have hlines : twoHeaders.lines =
      [cstring "GET /x HTTP/1.1", cstring "A:b", cstring "\tc", cstring "hOST:  h", []] := by decide +kernel
  have hbytes : twoHeadersParts.flatten = cstring "GET /x HTTP/1.1" ++ 13 :: 10 :: (cstring "A:b" ++ 13 :: 10 ::
      (cstring "\tc" ++ 10 :: (cstring "hOST:  h" ++ 10 :: ([] ++ 10 :: [])))) := by decide +kernel
  rw [hlines, hbytes]
  refine .crlf (by decide +kernel) (by decide +kernel) (.crlf (by decide +kernel) (by decide +kernel) ?_)
  refine .lf (by decide +kernel) (by decide +kernel) (by decide +kernel) ?_
  refine .lf (by decide +kernel) (by decide +kernel) (by decide +kernel) ?_
  exact .lf (by decide) (by decide) (by decide) .nil

theorem request_rewritten_second :
    (secondRequest.polls versionFooter twoHeadersInputs).root.str =
      cstring "GET http://h/x HTTP/1.1\r\nA: b\tc\r\nhOST: h\r\nX: y\r\n\r\n" := by
  have hparts : ReadsParts versionFooter secondRequest twoHeadersInputs twoHeadersParts :=
    ⟨⟨by decide +kernel, by decide +kernel⟩, by decide +kernel, ⟨by decide +kernel, by decide +kernel⟩,
      by decide +kernel,
      ⟨by decide +kernel, by decide +kernel⟩, by decide +kernel, ⟨by decide, by decide⟩, by decide +kernel,
      ⟨by decide +kernel, by decide +kernel⟩, by decide +kernel, trivial⟩
  have h := request_rewritten versionFooter true earlierMessages _ secondRequest rfl (by decide +kernel)
    (by decide +kernel) (by decide +kernel) twoHeaders _ twoHeaders_lines twoHeadersInputs twoHeadersParts hparts
  refine (h.2 rfl (by decide +kernel)).str.trans ?_
  decide +kernel

end RewriteConnection

end Emulator.Proxy
