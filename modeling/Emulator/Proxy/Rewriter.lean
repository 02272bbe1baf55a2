import Emulator.Proxy.Connection

/-!
# The HTTP rewriter (`proxy_http_rewriter.c`)

A rewriter connection sits between the emulated system (`slirp`) and a proxy server. It
reads the first line and the headers of a request, rewrites and sends them, passes the
body on, and does the same with the reply. `RewriteConnection.poll` is one call of
`rewrite_connection_poll`.

The `int64_t` counters are integers: only `body_total`, `body_sent` and `chunk_total` grow,
and they are written to the log only.
-/

namespace Emulator.Proxy

structure HttpHeader where
  key : List UInt8
  value : List UInt8
  deriving DecidableEq, Repr

inductive HttpRequestType
  | unsupported
  | get
  | head
  | post
  | put
  | delete
  deriving DecidableEq, Repr

/-- A request and, later, its reply. -/
structure HttpRequest where
  reqType : HttpRequestType
  reqMethod : List UInt8
  reqUri : List UInt8
  reqVersion : List UInt8
  repVersion : List UInt8 := []
  repCode : ℤ := -1
  repReadable : List UInt8 := []
  headers : List HttpHeader := []
  deriving DecidableEq, Repr

/-- `http_header_list_find`: the value of the first header with this key. -/
def httpHeaderListFind (l : List HttpHeader) (key : List UInt8) : Option (List UInt8) :=
  (l.find? fun h => strcaseeq h.key key).map HttpHeader.value

namespace HttpRequest

def typeOfMethod (method : List UInt8) : HttpRequestType :=
  if method = cstring "GET" then .get
  else if method = cstring "POST" then .post
  else if method = cstring "HEAD" then .head
  else if method = cstring "PUT" then .put
  else if method = cstring "DELETE" then .delete
  else .unsupported

def alloc (method uri version : List UInt8) : HttpRequest :=
  { reqType := typeOfMethod method, reqMethod := method, reqUri := uri, reqVersion := version }

def replaceUri (r : HttpRequest) (uri : List UInt8) : HttpRequest := { r with reqUri := uri }

def findHeader (r : HttpRequest) (key : String) : Option (List UInt8) :=
  httpHeaderListFind r.headers (cstring key)

def addHeader (r : HttpRequest) (key value : List UInt8) : HttpRequest :=
  { r with headers := r.headers ++ [⟨key, value⟩] }

/-- `http_request_add_to_last_header`; `none` where there is no header yet. -/
def addToLastHeader (r : HttpRequest) (line : List UInt8) : Option HttpRequest :=
  match r.headers.getLast? with
  | some h => some { r with headers := r.headers.dropLast ++ [{ h with value := h.value ++ line }] }
  | none => none

/-- `http_request_set_reply`; the code is stored before it is checked. -/
def setReply (r : HttpRequest) (version code readable : List UInt8) : Bool × HttpRequest :=
  if version ≠ cstring "HTTP/1.0" ∧ version ≠ cstring "HTTP/1.1" then (false, r)
  else
    let r := { r with repCode := atoi code }
    if r.repCode = 0 then (false, r)
    else (true, { r with repVersion := version, repReadable := readable, headers := [] })

end HttpRequest

inductive ConnectionState
  | connecting
  | createSocketPair
  | requestFirstLine
  | requestHeaders
  | requestSend
  | requestBody
  | replyFirstLine
  | replyHeaders
  | replySend
  | replyBody
  deriving DecidableEq, Repr

inductive BodyMode
  | none
  | knownLength
  | untilClose
  | chunked
  deriving DecidableEq, Repr

structure RewriteConnection where
  root : ProxyConnection := {}
  state : ConnectionState := .connecting
  request : Option HttpRequest := none
  bodyMode : BodyMode := .none
  bodyLength : ℤ := 0
  bodyTotal : ℤ := 0
  bodySent : ℤ := 0
  chunkLength : ℤ := 0
  chunkTotal : ℤ := 0
  bodyHasData : Bool := false
  bodyIsFull : Bool := false
  bodyIsClosed : Bool := false
  parseChunkHeader : Bool := false
  parseChunkTrailer : Bool := false
  /-- `proxy_connection_free` has been called. -/
  freed : Bool := false

def MAX_BODY_BUFFER : ℕ := 65536

namespace RewriteConnection

/-- `rewrite_connection_read_request`. -/
def readRequest (conn : RewriteConnection) (answers : List RecvAnswer) : DataStatus × RewriteConnection :=
  match conn.root.receiveLine .slirp answers with
  | (.completed, root, _) =>
    let conn := { conn with root := root }
    let (method, p) := strsep 32 (cstr root.str)
    match p with
    | none => (.error, conn)
    | some p =>
      let (uri, p) := strsep 32 p
      match p with
      | none => (.error, conn)
      | some p =>
        let (version, p) := strsep 32 p
        if p.isSome then (.error, conn)
        else (.completed, { conn with request := some (.alloc method uri version), root := root.rewind })
  | (ret, root, _) => (ret, { conn with root := root })

/-- `rewrite_connection_read_reply`. There always is a request when it is called; without
one the source would follow a null pointer. -/
def readReply (conn : RewriteConnection) (answers : List RecvAnswer) : DataStatus × RewriteConnection :=
  match conn.root.receiveLine .proxy answers with
  | (.completed, root, _) =>
    let conn := { conn with root := root }
    let (protocol, p) := strsep 32 (cstr root.str)
    match p with
    | none => (.error, conn)
    | some p =>
      let (number, p) := strsep 32 p
      match p, conn.request with
      | some readable, some request =>
        match request.setReply protocol number readable with
        | (false, request) => (.error, { conn with request := some request })
        | (true, request) => (.completed, { conn with request := some request, root := root.rewind })
      | _, _ => (.error, conn)
  | (ret, root, _) => (ret, { conn with root := root })

/-- The body of the loop of `rewrite_connection_read_headers` for a line that is not empty. -/
def addHeaderLine (r : HttpRequest) (line : List UInt8) : Option HttpRequest :=
  if line.head? = some 32 ∨ line.head? = some 9 then r.addToLastHeader line
  else
    match strsep 58 line with
    | (key, some value) => some (r.addHeader key (value.dropWhile (· = 32)))
    | (_, none) => none

/-- The loop of `rewrite_connection_read_headers`; each round uses an answer, so as many
rounds as there are answers are enough. -/
def readHeadersLoop (fd : Fd) :
    ℕ → RewriteConnection → List RecvAnswer → DataStatus × RewriteConnection × List RecvAnswer
  | 0, conn, answers => (.needMore, conn, answers)
  | n + 1, conn, answers =>
    match conn.root.receiveLine fd answers with
    | (.completed, root, answers) =>
      let line := cstr root.str
      let conn := { conn with root := { root with str := [] } }
      if line = [] then (.completed, conn, answers)
      else
        match conn.request.bind (addHeaderLine · line) with
        | none => (.error, conn, answers)
        | some r => readHeadersLoop fd n { conn with request := some r } answers
    | (ret, root, answers) => (ret, { conn with root := root }, answers)

/-- `rewrite_connection_read_headers`. -/
def readHeaders (conn : RewriteConnection) (fd : Fd) (answers : List RecvAnswer) :
    DataStatus × RewriteConnection × List RecvAnswer :=
  readHeadersLoop fd (answers.length + 1) conn answers

def formatHeader (h : HttpHeader) : List UInt8 := h.key ++ cstring ": " ++ h.value ++ cstring "\r\n"

/-- `rewrite_connection_rewrite_request` with the footer of the service. -/
def rewriteRequest (footer : List UInt8) (conn : RewriteConnection) : RewriteConnection :=
  match conn.request with
  | none => conn
  | some r =>
    let r :=
      if r.reqUri.head? = some 47 then
        match r.findHeader "Host" with
        | none => r
        | some host => r.replaceUri (cstring "http://" ++ host ++ r.reqUri)
      else r
    let str := r.reqMethod ++ cstring " " ++ r.reqUri ++ cstring " " ++ r.reqVersion ++ cstring "\r\n" ++
      r.headers.flatMap formatHeader ++ footer
    { conn with request := some r, root := { conn.root.rewind with str := str } }

/-- `rewrite_connection_rewrite_reply`. -/
def rewriteReply (conn : RewriteConnection) : RewriteConnection :=
  match conn.request with
  | none => conn
  | some r =>
    let str := r.repVersion ++ cstring " " ++ formatInt r.repCode ++ cstring " " ++ r.repReadable ++
      cstring "\r\n" ++ r.headers.flatMap formatHeader ++ cstring "\r\n"
    { conn with root := { conn.root.rewind with str := str } }

/-- The fields reset by `rewrite_connection_get_body_length`. -/
def resetBody (conn : RewriteConnection) : RewriteConnection :=
  { conn with
    root := conn.root.rewind
    bodyMode := .none
    bodyLength := 0
    bodyTotal := 0
    bodySent := 0
    bodyIsClosed := false
    bodyIsFull := false
    bodyHasData := false }

/-- The messages that never have a body. -/
def hasNoBody (r : HttpRequest) (isRequest : Bool) : Bool :=
  if isRequest then r.reqType ≠ .post ∧ r.reqType ≠ .put
  else r.reqType = .head ∨ r.repCode.tdiv 100 = 1 ∨ r.repCode = 204 ∨ r.repCode = 304

/-- The last part of `rewrite_connection_get_body_length`: no mode has been found yet. -/
def untilCloseBody (conn : RewriteConnection) (r : HttpRequest) : Bool × RewriteConnection :=
  let connection := (r.findHeader "Proxy-Connection").or (r.findHeader "Connection")
  match connection with
  | some v => if strcaseeq v (cstring "Close") then (true, { conn with bodyMode := .untilClose }) else (false, conn)
  | none => (false, conn)

/-- `rewrite_connection_get_body_length`; `false` is the result -1. -/
def getBodyLength (conn : RewriteConnection) (isRequest : Bool) : Bool × RewriteConnection :=
  match conn.request with
  | none => (false, conn)
  | some r =>
    let conn := conn.resetBody
    if hasNoBody r isRequest then (true, conn)
    else
      match r.findHeader "Content-Length" with
      | some contentLength =>
        let (bodyLen, end_) := strtoll 10 contentLength
        if end_ ≠ [] ∨ contentLength = [] ∨ bodyLen < 0 then (false, conn)
        else if 0 < bodyLen then (true, { conn with bodyMode := .knownLength, bodyLength := bodyLen })
        else untilCloseBody conn r
      | none =>
        if ∃ v ∈ r.findHeader "Transfer-Encoding", strcaseeq v (cstring "Chunked") then
          (true, { conn with
            bodyMode := .chunked
            parseChunkHeader := false
            parseChunkTrailer := false
            chunkLength := -1
            chunkTotal := 0 })
        else untilCloseBody conn r

/-- The end of `rewrite_connection_read_body`: at most `wanted` bytes are read, never more
than the buffer has room for. -/
def receiveBody (conn : RewriteConnection) (fd : Fd) (wanted : ℕ) (answers : List RecvAnswer) :
    DataStatus × RewriteConnection :=
  let avail := MAX_BODY_BUFFER - conn.root.str.length
  if avail = 0 then (.needMore, { conn with bodyIsFull := true })
  else
    let (ret, root, _) := conn.root.receive fd (min wanted avail) answers
    let conn := { conn with
      root := root
      bodyHasData := 0 < root.str.length
      bodyIsFull := root.str.length = MAX_BODY_BUFFER }
    if ret = .error then
      if conn.bodyMode = .untilClose then
        -- a disconnection is the end of such a body
        (.completed, { conn with bodyTotal := conn.bodyTotal + root.strRecv, bodyIsClosed := true })
      else (.error, conn)
    else
      match conn.bodyMode with
      | .chunked =>
        let conn := { conn with
          chunkTotal := conn.chunkTotal + root.strRecv
          chunkLength := conn.chunkLength - root.strRecv }
        if conn.chunkLength = 0 then
          (.needMore, { conn with bodyTotal := conn.bodyTotal + conn.chunkTotal, chunkTotal := 0, chunkLength := -1 })
        else (.needMore, conn)
      | .knownLength =>
        let conn := { conn with
          bodyLength := conn.bodyLength - root.strRecv
          bodyTotal := conn.bodyTotal + root.strRecv }
        if conn.bodyLength = 0 then (.completed, { conn with bodyIsClosed := true }) else (.needMore, conn)
      | .untilClose => (.needMore, { conn with bodyTotal := conn.bodyTotal + root.strRecv })
      | .none => (.needMore, conn)

/-- The part of `rewrite_connection_read_body` that reads a chunk header. It returns from the
whole function with a status, or goes on: also when no line, or only a part of one, was
there. -/
def readChunkHeader (conn : RewriteConnection) (fd : Fd) (answers : List RecvAnswer) :
    Option DataStatus × RewriteConnection × List RecvAnswer :=
  if !conn.parseChunkHeader && conn.bodyHasData then (some .needMore, conn, answers)
  else
    let conn := { conn with parseChunkHeader := true }
    match conn.root.receiveLine fd answers with
    | (.completed, root, answers) =>
      let conn := { conn with root := root }
      let line := cstr root.str
      let (length, end_) := strtoll 16 line
      if line.head? = some 32 ∨ (end_ ≠ [] ∧ end_.head? ≠ some 59) then (some .error, conn, answers)
      else if length < 0 then (some .error, conn, answers)
      else
        (none, { conn with
          chunkLength := length
          chunkTotal := 0
          parseChunkTrailer := if length = 0 then false else conn.parseChunkTrailer
          parseChunkHeader := false }, answers)
    | (_, root, answers) => (none, { conn with root := root }, answers)

/-- The part of `rewrite_connection_read_body` that reads the lines behind the last chunk. -/
def readChunkTrailer (conn : RewriteConnection) (fd : Fd) (answers : List RecvAnswer) :
    DataStatus × RewriteConnection :=
  if !conn.parseChunkTrailer && conn.bodyHasData then (.needMore, conn)
  else
    match { conn with parseChunkTrailer := true }.readHeaders fd answers with
    | (.completed, conn, _) => (.completed, { conn with bodyIsClosed := true })
    | (ret, conn, _) => (ret, conn)

/-- The rest of the chunked case: the trailer, or the data of a chunk. With a negative
length, nothing is read. -/
def readChunk (conn : RewriteConnection) (fd : Fd) (answers : List RecvAnswer) : DataStatus × RewriteConnection :=
  if conn.chunkLength = 0 then conn.readChunkTrailer fd answers
  else conn.receiveBody fd (min conn.chunkLength.toNat MAX_BODY_BUFFER) answers

/-- `rewrite_connection_read_body`. -/
def readBody (conn : RewriteConnection) (fd : Fd) (answers : List RecvAnswer) : DataStatus × RewriteConnection :=
  if conn.bodyIsClosed then (.needMore, conn)
  else
    match conn.bodyMode with
    | .none => (.completed, conn)
    | .knownLength =>
      if conn.bodyLength = 0 then (.completed, conn)
      else conn.receiveBody fd (min conn.bodyLength.toNat MAX_BODY_BUFFER) answers
    | .untilClose => conn.receiveBody fd MAX_BODY_BUFFER answers
    | .chunked =>
      if conn.chunkLength < 0 then
        match conn.readChunkHeader fd answers with
        | (some ret, conn, _) => (ret, conn)
        | (none, conn, answers) => conn.readChunk fd answers
      else conn.readChunk fd answers

/-- `rewrite_connection_send_body`. -/
def sendBody (conn : RewriteConnection) (fd : Fd) (answers : List SendAnswer) : DataStatus × RewriteConnection :=
  if conn.bodyHasData then
    let (ret, root) := conn.root.send fd answers
    if ret = .error then (.error, { conn with root := root })
    else
      let root := { root with str := root.str.drop root.strPos, strPos := 0 }
      let conn := { conn with
        root := root
        bodyIsFull := root.str.length = MAX_BODY_BUFFER
        bodyHasData := 0 < root.str.length
        bodySent := conn.bodySent + root.strSent }
      if ret = .completed ∧ (!conn.bodyIsClosed || conn.bodyHasData) then (.needMore, conn) else (ret, conn)
  else (.needMore, conn)

/-- What a call of `rewrite_connection_poll` meets: the sockets `select` has reported, what
they answer (a call reads from one of them and writes to one at most), and whether a socket
pair can be created. -/
structure PollInput where
  hasSlirp : Bool
  hasProxy : Bool
  recv : List RecvAnswer := []
  send : List SendAnswer := []
  socketPair : Bool := true
  deriving DecidableEq, Repr

/-- A state whose socket is not ready. -/
def idle (conn : RewriteConnection) : DataStatus × RewriteConnection := (.needMore, conn)

/-- The states that send the rewritten headers. -/
def pollSend (conn : RewriteConnection) (fd : Fd) (isRequest : Bool) (answers : List SendAnswer) :
    DataStatus × RewriteConnection :=
  match conn.root.send fd answers with
  | (.completed, root) =>
    match { conn with root := root }.getBodyLength isRequest with
    | (false, conn) => (.error, conn)
    | (true, conn) =>
      if conn.bodyMode ≠ .none then
        (.completed, { conn with state := if isRequest then .requestBody else .replyBody })
      else (.completed, { conn with state := if isRequest then .replyFirstLine else .requestFirstLine })
  | (ret, root) => (ret, { conn with root := root })

/-- The states that pass a body on: read first, then send. When the whole body is sent, the
connection goes on with `next`. -/
def pollBody (conn : RewriteConnection) (fromFd toFd : Fd) (hasFrom hasTo : Bool) (input : PollInput)
    (next : RewriteConnection → DataStatus × RewriteConnection) : DataStatus × RewriteConnection :=
  let (ret, conn) := if hasFrom then conn.readBody fromFd input.recv else (.needMore, conn)
  if ret ≠ .error ∧ hasTo then
    match conn.sendBody toFd input.send with
    | (.completed, conn) => next conn
    | (ret, conn) => (ret, conn)
  else (ret, conn)

/-- A request body is sent: the reply comes next. -/
def requestBodySent (conn : RewriteConnection) : DataStatus × RewriteConnection :=
  (.completed, { conn with state := .replyFirstLine })

/-- A reply body is sent: the next request, or the end of the connection. -/
def replyBodySent (conn : RewriteConnection) : DataStatus × RewriteConnection :=
  if conn.bodyMode = .untilClose then (.error, conn) else (.completed, { conn with state := .requestFirstLine })

/-- The switch of `rewrite_connection_poll`. -/
def pollState (footer : List UInt8) (conn : RewriteConnection) (input : PollInput) :
    DataStatus × RewriteConnection :=
  match conn.state with
  | .connecting =>
    if input.hasProxy then (.needMore, { conn with state := .createSocketPair }) else conn.idle
  | .createSocketPair =>
    if input.hasProxy then
      if input.socketPair then (.needMore, { conn with state := .requestFirstLine }) else (.error, conn)
    else conn.idle
  | .requestFirstLine =>
    if input.hasSlirp then
      match conn.readRequest input.recv with
      | (.completed, conn) => (.completed, { conn with state := .requestHeaders })
      | (ret, conn) => (ret, conn)
    else conn.idle
  | .requestHeaders =>
    if input.hasSlirp then
      match conn.readHeaders .slirp input.recv with
      | (.completed, conn, _) => (.completed, { conn.rewriteRequest footer with state := .requestSend })
      | (ret, conn, _) => (ret, conn)
    else conn.idle
  | .requestSend => if input.hasProxy then conn.pollSend .proxy true input.send else conn.idle
  | .requestBody => conn.pollBody .slirp .proxy input.hasSlirp input.hasProxy input requestBodySent
  | .replyFirstLine =>
    if input.hasProxy then
      match conn.readReply input.recv with
      | (.completed, conn) => (.completed, { conn with state := .replyHeaders })
      | (ret, conn) => (ret, conn)
    else conn.idle
  | .replyHeaders =>
    if input.hasProxy then
      match conn.readHeaders .proxy input.recv with
      | (.completed, conn, _) => (.completed, { conn.rewriteReply with state := .replySend })
      | (ret, conn, _) => (ret, conn)
    else conn.idle
  | .replySend => if input.hasSlirp then conn.pollSend .slirp false input.send else conn.idle
  | .replyBody => conn.pollBody .proxy .slirp input.hasProxy input.hasSlirp input replyBodySent

/-- `rewrite_connection_poll`; a connection that has been freed is polled no more. -/
def poll (footer : List UInt8) (conn : RewriteConnection) (input : PollInput) : RewriteConnection :=
  if conn.freed then conn
  else
    match conn.pollState footer input with
    | (.error, conn) => { conn with freed := true }
    | (_, conn) => conn

/-- Several polls in a row. -/
def polls (footer : List UInt8) (conn : RewriteConnection) (inputs : List PollInput) : RewriteConnection :=
  inputs.foldl (poll footer) conn

end RewriteConnection

end Emulator.Proxy
