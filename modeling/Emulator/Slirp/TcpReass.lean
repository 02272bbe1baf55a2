import Emulator.Lib.Ring
import Emulator.Lib.Reassembly

/-!
# TCP reassembly (`tcp_reass` and `TCP_REASS` of `tcp_input.c`)

Segments that do not come in order wait in a ring whose head is the control block itself. A queued segment is known by
the address of its TCP header; its links are right in front of the header, and those of the control block are its first
two words. So read as a header, the control block is at `tp + sizeof(struct qlink)`: this is what the macros of
`tcpip.h` make of it. Its field `ti_seq` is then the low word of `t_template.ti_mbuf`, and its field `ti_mbuf`, made of
`t_state` and of timers, is no buffer at all.

`none` is a pointer that is followed although it is null or no buffer, or a loop that does not end.
-/

namespace Emulator.Slirp.Tcp

open Function

/-- `sizeof(struct qlink)` with pointers of 64 bits. -/
def sizeofQlink : ℕ := 16

def TCPS_SYN_RECEIVED : ℕ := 3

def TCPS_ESTABLISHED : ℕ := 4

/-- What is read of the header of a queued segment, and the bytes of its buffer `ti_mbuf`. -/
structure TcpIpHdr where
  tiSeq : BitVec 32
  tiLen : ℕ
  fin : Bool
  mbuf : List UInt8
  deriving DecidableEq, Repr

/-- A control block with its queue and its socket. -/
structure Tcpcb where
  /-- The address of the control block. -/
  tp : ℕ
  link : Links ℕ
  hdr : ℕ → TcpIpHdr
  rcvNxt : BitVec 32
  tState : ℕ
  /-- `t_template.ti_mbuf`, which `tcp_template` sets to NULL. -/
  templateMbuf : BitVec 64
  /-- `SS_FCANTSENDMORE` of `so_state`. -/
  cantSendMore : Bool
  soEmu : Bool
  /-- The headers whose buffer is in the hands of the TCP code. -/
  held : ℕ → Bool
  /-- The number of segments so far; no queue is longer. -/
  segments : ℕ
  /-- The bytes that were passed to `sbappend`. -/
  appended : List UInt8

/-- `SEQ_GT`. -/
def seqGt (a b : BitVec 32) : Bool := 0 < (a - b).toInt

/-- `m_adj` and the fields that go with it: `i` bytes are cut off at the front. -/
def TcpIpHdr.adj (h : TcpIpHdr) (i : ℕ) : TcpIpHdr :=
  { h with tiSeq := h.tiSeq + BitVec.ofNat 32 i, tiLen := h.tiLen - i, mbuf := h.mbuf.drop i }

/-- `ti_seq + ti_len`. -/
def TcpIpHdr.stop (h : TcpIpHdr) : BitVec 32 := h.tiSeq + BitVec.ofNat 32 h.tiLen

def tcpiphdr2qlink (ti : ℕ) : ℕ := ti - sizeofQlink

def qlink2tcpiphdr (q : ℕ) : ℕ := q + sizeofQlink

namespace Tcpcb

variable (s : Tcpcb)

def tcpiphdrNext (ti : ℕ) : Option ℕ := (s.link.next (tcpiphdr2qlink ti)).map qlink2tcpiphdr

def tcpiphdrPrev (ti : ℕ) : Option ℕ := (s.link.prev (tcpiphdr2qlink ti)).map qlink2tcpiphdr

def tcpfragListFirst : Option ℕ := (s.link.next s.tp).map qlink2tcpiphdr

def tcpfragListEnd (ti : ℕ) : Bool := tcpiphdr2qlink ti = s.tp

def tcpfragListEmpty : Bool := s.link.next s.tp = some s.tp

/-- The word of the control block in the place of `ti_seq`. -/
def headSeq : BitVec 32 := s.templateMbuf.setWidth 32

def tiSeq (ti : ℕ) : BitVec 32 := if s.tcpfragListEnd ti then s.headSeq else (s.hdr ti).tiSeq

/-- A header with a buffer: the control block is none. -/
def tiHdr (ti : ℕ) : Option TcpIpHdr := if s.tcpfragListEnd ti then none else some (s.hdr ti)

def setHdr (ti : ℕ) (h : TcpIpHdr) : Tcpcb := { s with hdr := update s.hdr ti h }

/-- `m_freem` of the buffer of `ti`. -/
def mFreem (ti : ℕ) : Tcpcb := { s with held := update s.held ti false }

def remque (ti : ℕ) : Option Tcpcb := do
  let link ← s.link.remque (tcpiphdr2qlink ti)
  return { s with link := link }

def insque (ti after : ℕ) : Option Tcpcb := do
  let link ← s.link.insque (tcpiphdr2qlink ti) (tcpiphdr2qlink after)
  return { s with link := link }

/-- `sbappend`. -/
def sbappend (m : List UInt8) : Tcpcb := { s with appended := s.appended ++ m }

/-- `if (so->so_emu) { if (tcp_emu(so, m)) sbappend(so, m); } else sbappend(so, m);` where `emu` is what `tcp_emu`
leaves to `sbappend`. -/
def present (emu : List UInt8 → Option (List UInt8)) (m : List UInt8) : Tcpcb :=
  if s.soEmu then
    match emu m with
    | some m => s.sbappend m
    | none => s
  else s.sbappend m

/-- The loop that finds a segment which begins after `seq`. -/
def findAfter (seq : BitVec 32) : ℕ → ℕ → Option ℕ
  | 0, _ => none
  | fuel + 1, q =>
    if s.tcpfragListEnd q then some q
    else if seqGt (s.hdr q).tiSeq seq then some q
    else do
      let q ← s.tcpiphdrNext q
      findAfter seq fuel q

/-- The segment `ti` against the one in front of `q`; `none` inside: all of it is there already. -/
def clipSegment (ti q : ℕ) : Option (Option TcpIpHdr) := do
  let p ← s.tcpiphdrPrev q
  let h := s.hdr ti
  if s.tcpfragListEnd p then return some h
  else
    let i := ((s.hdr p).stop - h.tiSeq).toInt
    if 0 < i then
      if h.tiLen ≤ i then return none
      else return some (h.adj i.toNat)
    else return some h

end Tcpcb

/-- The loop that trims or dequeues the segments from `q` on, up to `stop`; it returns where it ended. -/
def trimLoop (stop : BitVec 32) : ℕ → Tcpcb → ℕ → Option (ℕ × Tcpcb)
  | 0, _, _ => none
  | fuel + 1, s, q =>
    if s.tcpfragListEnd q then some (q, s)
    else
      let i := (stop - (s.hdr q).tiSeq).toInt
      if i ≤ 0 then some (q, s)
      else if i < (s.hdr q).tiLen then some (q, s.setHdr q ((s.hdr q).adj i.toNat))
      else do
        let q ← s.tcpiphdrNext q
        let p ← s.tcpiphdrPrev q
        let s ← s.remque p
        trimLoop stop fuel (s.mFreem p) q

/-- The loop that presents data to the user. Its test for the end compares `ti` with the control block itself. -/
def presentLoop (emu : List UInt8 → Option (List UInt8)) : ℕ → Tcpcb → ℕ → Option (Bool × Tcpcb)
  | 0, _, _ => none
  | fuel + 1, s, ti => do
    let h ← s.tiHdr ti
    let s := { s with rcvNxt := s.rcvNxt + BitVec.ofNat 32 h.tiLen }
    let s ← s.remque ti
    let next ← s.tcpiphdrNext ti
    let s := s.mFreem ti
    let s := if s.cantSendMore then s else s.present emu h.mbuf
    if next ≠ s.tp ∧ s.tiSeq next = s.rcvNxt then presentLoop emu fuel s next
    else return (h.fin, s)

namespace Tcpcb

variable (s : Tcpcb) (emu : List UInt8 → Option (List UInt8))

/-- More rounds than any of the loops needs. -/
def fuel : ℕ := s.segments + 2

/-- `tcp_reass` from the label `present` on. -/
def tcpPresent : Option (Bool × Tcpcb) :=
  if s.tState < TCPS_ESTABLISHED then some (false, s)
  else do
    let ti ← s.tcpfragListFirst
    if s.tcpfragListEnd ti ∨ s.tiSeq ti ≠ s.rcvNxt then return (false, s)
    else if s.tState = TCPS_SYN_RECEIVED ∧ (s.hdr ti).tiLen ≠ 0 then return (false, s)
    else presentLoop emu s.fuel s ti

/-- `tcp_reass` for a segment. -/
def tcpReass (ti : ℕ) : Option (Bool × Tcpcb) := do
  let first ← s.tcpfragListFirst
  let q ← s.findAfter (s.hdr ti).tiSeq s.fuel first
  match ← s.clipSegment ti q with
  | none => (s.mFreem ti).tcpPresent emu
  | some h =>
    let (q, s) ← trimLoop h.stop s.fuel (s.setHdr ti h) q
    let p ← s.tcpiphdrPrev q
    let s ← s.insque ti p
    s.tcpPresent emu

/-- A segment comes in, with its header at `ti`. -/
def hold (ti : ℕ) (h : TcpIpHdr) : Tcpcb :=
  { s with
    hdr := update s.hdr ti h
    held := update s.held ti true
    segments := s.segments + 1 }

/-- `TCP_REASS` for a segment whose header is at `ti`; the flags for the acknowledgement are left out. -/
def tcpReassMacro (ti : ℕ) (h : TcpIpHdr) : Option (Bool × Tcpcb) :=
  let s := s.hold ti h
  if h.tiSeq = s.rcvNxt ∧ s.tcpfragListEmpty ∧ s.tState = TCPS_ESTABLISHED then
    some (h.fin, ({ s with rcvNxt := s.rcvNxt + BitVec.ofNat 32 h.tiLen }.mFreem ti).present emu h.mbuf)
  else s.tcpReass emu ti

end Tcpcb

end Emulator.Slirp.Tcp
