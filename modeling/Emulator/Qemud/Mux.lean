import Emulator.Lib.Linked
import Emulator.Qemud.Client

/-!
# The qemud multiplexer

The multiplexer of `android/hw-qemud.c`: the global list of clients with its
`pref` back pointers, the services with their client lists and counters, the
control channel and the calls of the services. Clients and services are objects
of a heap: `none` stands for the use of a freed object, or for a walk that does
not end. What a `serv_connect` callback answers is part of the event, and so is
the address `malloc` gives out, which may be one that was freed before.
-/

namespace Emulator.Qemud

open Function

/-- The cells of the client list of a service. -/
inductive ServLink
  | clients (s : ServicePtr)
  | nextServ (c : ClientPtr)
  deriving DecidableEq, Repr

/-- The cells of the list of services. -/
inductive ServiceLink
  | services
  | next (s : ServicePtr)
  deriving DecidableEq, Repr

/-- A `QemudService` without its callback. -/
structure QemudService where
  name : List UInt8
  maxClients : ℤ
  numClients : ℤ
  clients : Option ClientPtr
  next : Option ServicePtr
  deriving DecidableEq, Repr

/-- The multiplexer with the heap its pointers lead into. All addresses from `top`
on are free; services are never freed, so the next one is at `servTop`. `out` is
what has been written to the serial port. -/
structure QemudMultiplexer where
  version : QemudVersion
  clients : Option ClientPtr
  services : Option ServicePtr
  mem : ClientPtr → Option QemudClient
  top : ClientPtr
  servMem : ServicePtr → Option QemudService
  servTop : ServicePtr
  out : List UInt8

namespace QemudMultiplexer

def setClient (m : QemudMultiplexer) (c : ClientPtr) (x : QemudClient) : QemudMultiplexer :=
  { m with mem := update m.mem c (some x) }

def setService (m : QemudMultiplexer) (s : ServicePtr) (x : QemudService) : QemudMultiplexer :=
  { m with servMem := update m.servMem s (some x) }

def free (m : QemudMultiplexer) (c : ClientPtr) : QemudMultiplexer :=
  { m with mem := update m.mem c none }

def readLink (m : QemudMultiplexer) : ClientLink → Option (Option ClientPtr)
  | .clients => some m.clients
  | .next c => (m.mem c).map QemudClient.next

def writeLink (m : QemudMultiplexer) (k : ClientLink) (p : Option ClientPtr) : Option QemudMultiplexer :=
  match k with
  | .clients => some { m with clients := p }
  | .next c => do
    let x ← m.mem c
    some (m.setClient c { x with next := p })

def readServ (m : QemudMultiplexer) : ServLink → Option (Option ClientPtr)
  | .clients s => (m.servMem s).map QemudService.clients
  | .nextServ c => (m.mem c).map QemudClient.nextServ

def writeServ (m : QemudMultiplexer) (k : ServLink) (p : Option ClientPtr) : Option QemudMultiplexer :=
  match k with
  | .clients s => do
    let x ← m.servMem s
    some (m.setService s { x with clients := p })
  | .nextServ c => do
    let x ← m.mem c
    some (m.setClient c { x with nextServ := p })

def readService (m : QemudMultiplexer) : ServiceLink → Option (Option ServicePtr)
  | .services => some m.services
  | .next s => (m.servMem s).map QemudService.next

end QemudMultiplexer

open QemudMultiplexer

/-- `if (n) n->pref = pref;` -/
def writePref (m : QemudMultiplexer) (n : Option ClientPtr) (pref : ClientLink) : Option QemudMultiplexer :=
  match n with
  | none => some m
  | some n => do
    let y ← m.mem n
    some (m.setClient n { y with pref := pref })

/-- `qemud_client_remove`. -/
def qemudClientRemove (m : QemudMultiplexer) (c : ClientPtr) : Option QemudMultiplexer := do
  let x ← m.mem c
  let m ← m.writeLink x.pref x.next
  let x ← m.mem c
  let m ← writePref m x.next x.pref
  let x ← m.mem c
  some (m.setClient c { x with next := none, pref := .next c })

/-- `qemud_client_prepend`. -/
def qemudClientPrepend (m : QemudMultiplexer) (c : ClientPtr) (plist : ClientLink) :
    Option QemudMultiplexer := do
  let x ← m.mem c
  let head ← m.readLink plist
  let m := m.setClient c { x with next := head, pref := plist }
  let m ← m.writeLink plist (some c)
  let x ← m.mem c
  writePref m x.next (.next c)

/-- The address for a new client: the one the allocator picks if it is free. -/
def clientAddr (m : QemudMultiplexer) (pick : ClientPtr) : ClientPtr :=
  if (m.mem pick).isNone then pick else m.top

/-- `qemud_client_alloc`, linked in at `m->clients`. -/
def qemudClientAlloc (m : QemudMultiplexer) (channel : ℤ) (recv close : Bool) (pick : ClientPtr) :
    Option (QemudMultiplexer × ClientPtr) := do
  let c := clientAddr m pick
  let m := { m.setClient c (newClient channel recv close) with top := max m.top (c + 1) }
  let m ← qemudClientPrepend m c .clients
  some (m, c)

/-- `qemud_service_new`. -/
def qemudServiceNew (m : QemudMultiplexer) (name : List UInt8) (maxClients : ℤ) : QemudMultiplexer :=
  { m.setService m.servTop ⟨name, maxClients, 0, none, m.services⟩ with
    services := some m.servTop, servTop := m.servTop + 1 }

/-- `qemud_service_add_client`. -/
def qemudServiceAddClient (m : QemudMultiplexer) (s : ServicePtr) (c : ClientPtr) :
    Option QemudMultiplexer := do
  let x ← m.mem c
  let sv ← m.servMem s
  let m := m.setClient c { x with service := some s, nextServ := sv.clients }
  some (m.setService s { sv with clients := some c, numClients := sv.numClients + 1 })

/-- `qemud_service_remove_client`. -/
def qemudServiceRemoveClient (m : QemudMultiplexer) (s : ServicePtr) (c : ClientPtr) :
    Option QemudMultiplexer := do
  match ← walk m.readServ .nextServ (fun node => some (node == c)) (m.top + 1) (.clients s) with
  | none => some m
  | some (pnode, node) => do
    let x ← m.mem node
    let m ← m.writeServ pnode x.nextServ
    let sv ← m.servMem s
    some (m.setService s { sv with numClients := sv.numClients - 1 })

def ascii (s : String) : List UInt8 := s.toList.map fun c => UInt8.ofNat c.toNat

/-- `%02x`. -/
def format02x (n : ℕ) : List UInt8 := int2hex (max 2 (n.log2 / 4 + 1)) n

/-- `qemud_serial_send` on the control channel. -/
def sendControl (m : QemudMultiplexer) (msg : List UInt8) : QemudMultiplexer :=
  { m with out := m.out ++ qemudSerialSend m.version 0 false msg }

/-- The part of `qemud_client_disconnect` that leaves the service. -/
def leaveService (m : QemudMultiplexer) (c : ClientPtr) (service : Option ServicePtr) :
    Option QemudMultiplexer :=
  match service with
  | none => some m
  | some s => do
    let m ← qemudServiceRemoveClient m s c
    let x ← m.mem c
    some (m.setClient c { x with service := none })

/-- `qemud_client_disconnect`. The close callback does not change the multiplexer. -/
def qemudClientDisconnect (m : QemudMultiplexer) (c : ClientPtr) : Option QemudMultiplexer := do
  let m ← qemudClientRemove m c
  let x ← m.mem c
  let m := if 0 < x.channel then sendControl m (ascii "disconnect:" ++ format02x x.channel.toNat) else m
  let m := m.setClient c { x with clieClose := false, clieRecv := false }
  let m ← leaveService m c x.service
  some (m.free c)

/-- `qemud_client_new`. -/
def qemudClientNew (m : QemudMultiplexer) (s : ServicePtr) (channel : ℤ) (recv close : Bool)
    (pick : ClientPtr) : Option (QemudMultiplexer × ClientPtr) := do
  let (m, c) ← qemudClientAlloc m channel recv close pick
  let m ← qemudServiceAddClient m s c
  some (m, c)

/-- `qemud_client_close`. -/
def qemudClientClose (m : QemudMultiplexer) (c : ClientPtr) : Option QemudMultiplexer :=
  qemudClientDisconnect m c

/-- What a `serv_connect` callback does: return `NULL`, or call `qemud_client_new`
once, set the framing of the new client if it wants to, and return it. -/
inductive ServConnect
  | refuse
  | accept (recv close : Bool) (framing : Option Bool) (pick : ClientPtr)
  deriving DecidableEq, Repr

/-- The `serv_connect` callback of a service; the result says whether it returned a
client. -/
def servConnect (m : QemudMultiplexer) (s : ServicePtr) (channel : ℤ) :
    ServConnect → Option (QemudMultiplexer × Bool)
  | .refuse => some (m, false)
  | .accept recv close framing pick => do
    let (m, c) ← qemudClientNew m s channel recv close pick
    match framing with
    | none => some (m, true)
    | some f => do
      let x ← m.mem c
      some (m.setClient c (qemudClientSetFraming x f), true)

/-- `qemud_multiplexer_connect`. -/
def qemudMultiplexerConnect (m : QemudMultiplexer) (serviceName : List UInt8) (channelId : ℤ)
    (ans : ServConnect) : Option (QemudMultiplexer × ℤ) := do
  let named := fun s => (m.servMem s).map fun sv => decide (cstr sv.name = cstr serviceName)
  match ← walk m.readService .next named (m.servTop + 1) .services with
  | none => some (m, -1)
  | some (_, s) => do
    let sv ← m.servMem s
    if 0 < sv.maxClients ∧ sv.maxClients ≤ sv.numClients then some (m, -2)
    else do
      let (m, client) ← servConnect m s channelId ans
      if client then some (m, 0) else some (m, -1)

/-- `qemud_multiplexer_disconnect`. -/
def qemudMultiplexerDisconnect (m : QemudMultiplexer) (channel : ℤ) : Option QemudMultiplexer := do
  let isIt := fun c => (m.mem c).map fun x => decide (x.channel = channel)
  match ← walk m.readLink .next isIt (m.top + 1) .clients with
  | none => some m
  | some (_, c) => do
    let x ← m.mem c
    qemudClientDisconnect (m.setClient c { x with channel := -1 }) c

/-- The service name and the channel of `"..:<service>:<id>"`, from the offset of
the name; `none` for a malformed message. -/
def parseConnect (msg : List UInt8) (offset : ℕ) : Option (List UInt8 × ℤ) :=
  let serviceName := cstr (msg.drop offset)
  match serviceName.findIdx? (· == 58) with
  | none => none
  | some i =>
    if offset + i + 3 ≠ msg.length then none
    else
      let channel := hex2int (msg.drop (offset + i + 1)) 2
      if channel ≤ 0 then none else some (serviceName.take i, channel)

/-- `qemud_multiplexer_control_recv`. -/
def qemudMultiplexerControlRecv (m : QemudMultiplexer) (msg : List UInt8) (ans : ServConnect) :
    Option QemudMultiplexer :=
  if 8 < msg.length ∧ msg.take 8 = ascii "connect:" then
    match parseConnect msg 8 with
    | none => some m
    | some (serviceName, channel) => do
      let (m, ret) ← qemudMultiplexerConnect m serviceName channel ans
      let id := format02x channel.toNat
      if ret < 0 then
        if ret = -1 then some (sendControl m (ascii "ko:connect:" ++ id ++ ascii ":unknown service"))
        else some (sendControl m (ascii "ko:connect:" ++ id ++ ascii ":service busy"))
      else some (sendControl m (ascii "ok:connect:" ++ id))
  else if msg.length = 13 ∧ msg.take 11 = ascii "disconnect:" then
    let channelId := hex2int (msg.drop 11) 2
    if channelId ≤ 0 then some m else qemudMultiplexerDisconnect m channelId
  else if 11 < msg.length ∧ msg.take 11 = ascii "ok:connect:" then
    match parseConnect msg 11 with
    | none => some m
    | some (serviceName, channel) =>
      match m.version with
      | .normal => some m
      | _ => do
        let m := { m with version := .legacy }
        let serviceName := if serviceName = ascii "control" then ascii "hw-control" else serviceName
        let (m, _) ← qemudMultiplexerConnect m serviceName channel ans
        some m
  else if m.version = .legacy then some m
  else some (sendControl m (ascii "ko:unknown command"))

/-- `qemud_multiplexer_serial_recv`. A client without a service is the control
client, whose callback is `qemud_multiplexer_control_recv`. -/
def qemudMultiplexerSerialRecv (m : QemudMultiplexer) (channel : ℤ) (msg : List UInt8) (ans : ServConnect) :
    Option QemudMultiplexer := do
  let isIt := fun c => (m.mem c).map fun x => decide (x.channel = channel)
  match ← walk m.readLink .next isIt (m.top + 1) .clients with
  | none => some m
  | some (_, c) => do
    let x ← m.mem c
    let (x', calls) ← qemudClientRecv x msg
    let m := m.setClient c x'
    if x.service = none then
      calls.foldlM (fun m msg => qemudMultiplexerControlRecv m msg ans) m
    else some m

/-- `qemud_multiplexer_init`: an empty heap and the control client on channel 0, at
the address `pick`. -/
def qemudMultiplexerInit (pick : ClientPtr) : Option QemudMultiplexer := do
  let m : QemudMultiplexer := ⟨.unknown, none, none, fun _ => none, 0, fun _ => none, 0, []⟩
  let (m, _) ← qemudClientAlloc m 0 true false pick
  some m

/-- What can happen to the multiplexer: a packet of the daemon on the control
channel, with the version the serial reader has found by then; a service that
closes one of its clients or all of them; the registration of a service. -/
inductive Event
  | control (version : QemudVersion) (msg : List UInt8) (ans : ServConnect)
  | close (c : ClientPtr)
  | disconnectAll (s : ServicePtr)
  | register (name : List UInt8) (maxClients : ℤ)

/-- The clients of a service hold their pointers only while they are alive, so a
`close` of anything else is no call at all. -/
def closeIfClient (m : QemudMultiplexer) (c : ClientPtr) : Option QemudMultiplexer :=
  match m.mem c with
  | some x => if x.service = none then some m else qemudClientClose m c
  | none => some m

/-- A service closes its clients one after the other, always the first of its list. -/
def disconnectAll : ℕ → QemudMultiplexer → ServicePtr → Option QemudMultiplexer
  | 0, _, _ => none
  | fuel + 1, m, s =>
    match m.servMem s with
    | none => some m
    | some sv =>
      match sv.clients with
      | none => some m
      | some c => do
        let m ← qemudClientClose m c
        disconnectAll fuel m s

def step (m : QemudMultiplexer) : Event → Option QemudMultiplexer
  | .control version msg ans => qemudMultiplexerSerialRecv { m with version := version } 0 msg ans
  | .close c => closeIfClient m c
  | .disconnectAll s => disconnectAll (m.top + 1) m s
  | .register name maxClients => some (qemudServiceNew m name maxClients)

/-- A run of the multiplexer. -/
def run (m : QemudMultiplexer) (evs : List Event) : Option QemudMultiplexer := evs.foldlM step m

end Emulator.Qemud
