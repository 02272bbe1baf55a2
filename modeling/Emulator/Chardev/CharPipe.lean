import Emulator.Chardev.CBuffer

/-!
# Pipes between character devices (`charpipe.c`)

One half of a pipe: what is written goes to the peer at once, or to a chain of buffers from which `charpipehalf_poll`
passes it on later. The buffers come from a list of free ones, or from `malloc`.

The peer is seen through its calls: `can i` is what its `chr_can_read` returns the `i`-th time.
-/

namespace Emulator.Chardev

open Function

/-- `BIP_BUFFER_SIZE`. -/
def bipBufferSize : ℕ := 512

/-- A call of the peer: `chr_can_read` with what it returned, or `chr_read`. -/
inductive PeerCall
  | canRead (n : ℕ)
  | read (bytes : List UInt8)

/-- Which pointers are set: the peer, its handlers, and the `chr_can_read` of the half itself. -/
structure Handlers where
  peer : Bool
  peerRead : Bool
  peerCanRead : Bool
  canRead : Bool

/-- A half of a pipe, with the `BipBuffer`s: the next pointers, the rings, the list of the free ones, and the first
pointer that `malloc` has not given yet. `asked` counts the calls of the peer's `chr_can_read`. -/
structure CharPipeHalf where
  next : ℕ → Option ℕ
  cb : ℕ → CBuffer
  freeBipBuffers : Option ℕ
  fresh : ℕ
  bipFirst : Option ℕ
  bipLast : Option ℕ
  asked : ℕ
  calls : List PeerCall

namespace CharPipeHalf

variable (hd : Handlers) (can : ℕ → ℕ)

/-- The end of `bip_buffer_alloc`. -/
def initBuffer (ph : CharPipeHalf) (bip : ℕ) : CharPipeHalf :=
  { ph with
    next := update ph.next bip none
    cb := update ph.cb bip (CBuffer.reset (ph.cb bip).buff bipBufferSize) }

/-- `bip_buffer_alloc`. -/
def bipBufferAlloc (ph : CharPipeHalf) : ℕ × CharPipeHalf :=
  match ph.freeBipBuffers with
  | some bip => (bip, { ph with freeBipBuffers := ph.next bip }.initBuffer bip)
  | none => (ph.fresh, { ph with fresh := ph.fresh + 1 }.initBuffer ph.fresh)

/-- `bip_buffer_free`. -/
def bipBufferFree (ph : CharPipeHalf) (bip : ℕ) : CharPipeHalf :=
  { ph with next := update ph.next bip ph.freeBipBuffers, freeBipBuffers := some bip }

/-- `qemu_chr_can_read (peer->cs)`. -/
def qemuChrCanRead (ph : CharPipeHalf) : ℕ × CharPipeHalf :=
  if !hd.peerCanRead then (0, ph)
  else (can ph.asked, { ph with asked := ph.asked + 1, calls := ph.calls ++ [.canRead (can ph.asked)] })

/-- `qemu_chr_read (peer->cs, ..)`. -/
def qemuChrRead (ph : CharPipeHalf) (bytes : List UInt8) : CharPipeHalf :=
  { ph with calls := ph.calls ++ [.read bytes] }

/-- The first loop of `charpipehalf_write`: what is left of the bytes, and `ret`. -/
def writeDirect : ℕ → List UInt8 → ℕ → CharPipeHalf → List UInt8 × ℕ × CharPipeHalf
  | 0, buf, ret, ph => (buf, ret, ph)
  | fuel + 1, buf, ret, ph =>
    if buf.length = 0 then (buf, ret, ph)
    else if hd.peerCanRead then
      let (size, ph) := ph.qemuChrCanRead hd can
      if size = 0 then (buf, ret, ph)
      else
        let size := if size > buf.length then buf.length else size
        writeDirect fuel (buf.drop size) (ret + size) (ph.qemuChrRead (buf.take size))
    else
      let size := buf.length
      writeDirect fuel (buf.drop size) (ret + size) (ph.qemuChrRead (buf.take size))

/-- The second loop of `charpipehalf_write`, with the last buffer of the chain. -/
def writeBuffers : ℕ → ℕ → List UInt8 → ℕ → CharPipeHalf → ℕ × CharPipeHalf
  | 0, _, _, ret, ph => (ret, ph)
  | fuel + 1, bip, buf, ret, ph =>
    if buf.length = 0 then (ret, ph)
    else
      let (len2, cb) := (ph.cb bip).write buf
      let ph := { ph with cb := update ph.cb bip cb }
      let buf := buf.drop len2
      if buf.length = 0 then (ret + len2, ph)
      else
        let (bip', ph) := ph.bipBufferAlloc
        writeBuffers fuel bip' buf (ret + len2)
          { ph with bipLast := some bip', next := update ph.next bip (some bip') }

/-- `charpipehalf_write`. -/
def charpipehalfWrite (buf : List UInt8) (ph : CharPipeHalf) : ℕ × CharPipeHalf :=
  let (buf, ret, ph) :=
    if ph.bipLast = none ∧ hd.peer ∧ hd.peerRead then writeDirect hd can buf.length buf 0 ph else (buf, 0, ph)
  if buf.length = 0 then (ret, ph)
  else
    match ph.bipLast with
    | some bip => writeBuffers (buf.length + 1) bip buf ret ph
    | none =>
      let (bip, ph) := ph.bipBufferAlloc
      writeBuffers (buf.length + 1) bip buf ret { ph with bipFirst := some bip, bipLast := some bip }

/-- What a round of `charpipehalf_poll` passes on, of `size` bytes at most. -/
def passOn (ph : CharPipeHalf) (bip size : ℕ) : CharPipeHalf :=
  let (avail, base) := (ph.cb bip).readPeek
  let avail := if avail > size then size else avail
  let ph := ph.qemuChrRead (base avail)
  { ph with cb := update ph.cb bip ((ph.cb bip).readStep avail) }

/-- The loop of `charpipehalf_poll`. -/
def pollLoop : ℕ → CharPipeHalf → Option CharPipeHalf
  | 0, _ => none
  | fuel + 1, ph =>
    match ph.bipFirst with
    | none => some ph
    | some bip =>
      let size := (ph.cb bip).readAvail
      if size = 0 then
        let first := ph.next bip
        let ph := { ph with bipFirst := first, bipLast := if first = none then none else ph.bipLast }
        pollLoop fuel (ph.bipBufferFree bip)
      else if hd.canRead then
        let (size2, ph) := ph.qemuChrCanRead hd can
        if size2 = 0 then some ph
        else pollLoop fuel (ph.passOn bip (if size > size2 then size2 else size))
      else pollLoop fuel (ph.passOn bip size)

/-- `charpipehalf_poll`. -/
def charpipehalfPoll (fuel : ℕ) (ph : CharPipeHalf) : Option CharPipeHalf :=
  if !hd.peer || !hd.peerRead then some ph else pollLoop hd can fuel ph

end CharPipeHalf

end Emulator.Chardev
