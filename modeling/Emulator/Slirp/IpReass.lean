import Emulator.Lib.Reassembly

/-!
# IP reassembly (`ip_reass` and the fragments in `ip_input` of `ip_input.c`)

The fragments of a datagram wait in a queue of their own until there is no gap left. A queue is modelled as the list of
its fragments, and `ipq` as the list of the queues; of a buffer (`struct mbuf`) there are the flags, `m_size`, the
offset of `m_data` in the buffer, and the bytes from `m_data` on.

`none` is undefined behaviour: memory that is written behind the end of a buffer, memory that is used after it was
freed, or a pointer into the wrong buffer.
-/

namespace Emulator.Slirp.Frags

def IP_DF : ℕ := 0x4000

def MINCSIZE : ℕ := 4096

/-- `struct ip`, the numbers in host order. -/
structure IpHdr where
  ipHl : ℕ
  ipTos : UInt8
  ipLen : ℕ
  ipId : UInt16
  ipOff : ℕ
  ipP : UInt8
  ipSrc : UInt32
  ipDst : UInt32
  deriving DecidableEq, Repr

structure Mbuf where
  /-- `M_EXT`: the data is in a buffer of its own, `m_ext`. -/
  ext : Bool
  /-- `M_DOFREE`: `m_free` gives the memory back. -/
  dofree : Bool
  size : ℕ
  off : ℕ
  data : List UInt8
  deriving DecidableEq, Repr

/-- A fragment in a queue (`struct ipasfrag`), with its buffer. -/
structure Frag where
  ip : IpHdr
  m : Mbuf
  deriving DecidableEq, Repr

/-- A reassembly queue. -/
structure Ipq where
  ipqP : UInt8
  ipqId : UInt16
  ipqSrc : UInt32
  ipqDst : UInt32
  frags : List Frag
  deriving DecidableEq, Repr

/-- A packet for the input routine of its protocol: the header, and the data behind it. The routine is also given the
header length of the fragment that has come last, which is not in here. -/
structure Packet where
  ip : IpHdr
  data : List UInt8
  deriving DecidableEq, Repr

namespace Mbuf

/-- `M_FREEROOM`. -/
def freeroom (m : Mbuf) : ℕ := m.size - m.off - m.data.length

/-- `m_adj`, at the front. -/
def adj (m : Mbuf) (i : ℕ) : Mbuf := { m with off := m.off + i, data := m.data.drop i }

/-- `m_inc`. -/
def inc (m : Mbuf) (size : ℕ) : Mbuf := if size < m.size then m else { m with ext := true, size := size }

/-- `m_cat`: if there is no room the buffer grows, once. -/
def cat (m n : Mbuf) : Option Mbuf :=
  let m := if m.freeroom < n.data.length then m.inc (m.size + MINCSIZE) else m
  if m.freeroom < n.data.length then none else some { m with data := m.data ++ n.data }

end Mbuf

/-- More fragments are to come: `ip_tos & 1`. -/
def IpHdr.more (ip : IpHdr) : Bool := ip.ipTos &&& 1 ≠ 0

namespace Frag

/-- `m_adj` and the fields that go with it. -/
def adj (f : Frag) (i : ℕ) : Frag :=
  ⟨{ f.ip with ipOff := f.ip.ipOff + i, ipLen := f.ip.ipLen - i }, f.m.adj i⟩

def stop (f : Frag) : ℕ := f.ip.ipOff + f.ip.ipLen

end Frag

/-- The new fragment `f` behind the fragments `pre`; `none`: drop it. -/
def clipFrag (pre : List Frag) (f : Frag) : Option Frag :=
  match pre.getLast? with
  | none => some f
  | some pq =>
    let i : ℤ := pq.ip.ipOff + pq.ip.ipLen - f.ip.ipOff
    if 0 < i then
      if f.ip.ipLen ≤ i then none else some (f.adj i.toNat)
    else some f

/-- The loop that trims or dequeues the succeeding fragments. -/
def trimFrags (stop : ℕ) : List Frag → Option (List Frag)
  | [] => some []
  | q :: l =>
    if q.ip.ipOff < stop then
      let i := stop - q.ip.ipOff
      if i < q.ip.ipLen then some (q.adj i :: l)
      -- `m_freem(dtom(q->ipf_prev)); ip_deq(q->ipf_prev);` the links are in the memory that was freed
      else if q.m.ext || q.m.dofree then none
      else trimFrags stop l
    else some (q :: l)

/-- The loop that checks for gaps: the length, if there are none. -/
def scanFrags (next : ℕ) : List Frag → Option ℕ
  | [] => some next
  | q :: l => if q.ip.ipOff ≠ next then none else scanFrags (next + q.ip.ipLen) l

/-- The length of the datagram, if reassembly is complete. -/
def completeFrags (l : List Frag) : Option ℕ :=
  match scanFrags 0 l, l.getLast? with
  | some next, some last => if last.ip.more then none else some next
  | _, _ => none

/-- The fragments are concatenated, and the header of the first one is made that of the datagram. A header that is in an
external buffer is not found again: the source takes its offset from `m_dat`. -/
def joinFrags (fp : Ipq) (next : ℕ) : List Frag → Option Packet
  | [] => none
  | q :: l => do
    let m ← l.foldlM (fun m t => m.cat t.m) q.m
    if q.m.ext then none
    else
      return ⟨{ q.ip with
        ipLen := next
        ipTos := q.ip.ipTos &&& 0xfe
        ipSrc := fp.ipqSrc
        ipDst := fp.ipqDst }, m.data⟩

/-- From the label `insert` on: the datagram, if there is one, and the queue, if it is still there. -/
def finishFrags (fp : Ipq) (l : List Frag) : Option (Option Packet × Option Ipq) :=
  match completeFrags l with
  | none => some (none, some { fp with frags := l })
  | some next => do
    let packet ← joinFrags fp next l
    return (some packet, none)

/-- `ip_reass` for a queue that exists. -/
def ipReassQueue (fp : Ipq) (f : Frag) : Option (Option Packet × Option Ipq) :=
  let pre := fp.frags.takeWhile fun q => q.ip.ipOff ≤ f.ip.ipOff
  let post := fp.frags.dropWhile fun q => q.ip.ipOff ≤ f.ip.ipOff
  match clipFrag pre f with
  | none => some (none, some fp)
  | some f => do
    let post ← trimFrags f.stop post
    finishFrags fp (pre ++ f :: post)

/-- A queue with its first fragment. -/
def newQueue (f : Frag) : Ipq := ⟨f.ip.ipP, f.ip.ipId, f.ip.ipSrc, f.ip.ipDst, []⟩

def Ipq.isFor (fp : Ipq) (ip : IpHdr) : Bool :=
  ip.ipId = fp.ipqId && ip.ipSrc = fp.ipqSrc && ip.ipDst = fp.ipqDst && ip.ipP = fp.ipqP

/-- `ip_reass`: the first queue for the fragment, or a new one at the front of `ipq`. `buffer` tells whether `m_get` has
a buffer for a new queue. -/
def ipReass (buffer : Bool) (ipq : List Ipq) (ip : IpHdr) (m : Mbuf) : Option (Option Packet × List Ipq) :=
  let f : Frag := ⟨ip, m.adj (ip.ipHl * 4)⟩
  match ipq.dropWhile fun fp => !fp.isFor ip with
  | fp :: rest => do
    let (packet, fp) ← ipReassQueue fp f
    return (packet, (ipq.takeWhile fun fp => !fp.isFor ip) ++ fp.toList ++ rest)
  | [] =>
    if buffer then do
      let (packet, fp) ← finishFrags (newQueue f) [f]
      return (packet, fp.toList ++ ipq)
    else some (none, ipq)

/-- `ip_input` for a packet that has passed the checks: the packet for the protocol, if there is one, without `hlen`. -/
def ipInput (buffer : Bool) (ipq : List Ipq) (ip : IpHdr) (m : Mbuf) : Option (Option Packet × List Ipq) :=
  let whole := fun ip : IpHdr => (⟨ip, m.data.drop (ip.ipHl * 4)⟩ : Packet)
  if ip.ipOff &&& (0xffff - IP_DF) ≠ 0 then
    let ip := { ip with
      ipLen := ip.ipLen - ip.ipHl * 4
      ipTos := if ip.ipOff.testBit 13 then ip.ipTos ||| 1 else ip.ipTos &&& 0xfe
      ipOff := ip.ipOff * 8 % 65536 }
    if ip.more ∨ ip.ipOff ≠ 0 then ipReass buffer ipq ip m
    else
      -- not a fragment: `ip_freef` of the queue, if there is one
      some (some (whole ip), (ipq.takeWhile fun fp => !fp.isFor ip) ++ (ipq.dropWhile fun fp => !fp.isFor ip).tail)
  else some (some (whole { ip with ipLen := ip.ipLen - ip.ipHl * 4 }), ipq)

end Emulator.Slirp.Frags
