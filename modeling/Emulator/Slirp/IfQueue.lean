import Emulator.Lib.Ring

/-!
# The output queues of the user mode network

The packet buffers of `mbuf.c` and the two output queues of `if.c`. A buffer has two pairs of links: `m_next` and
`m_prev` (`ifq_*` in the queues) and `m_nextpkt` and `m_prevpkt` (`ifs_*`). The links of all buffers are kept field by
field; the heads of the lists are buffers that are global variables. `none` is a null pointer that is followed.
-/

namespace Emulator.Slirp

open Function

/-- `m_freelist`, `m_usedlist`, `if_fastq` and `if_batchq`. -/
inductive Head where
  | freelist | usedlist | fastq | batchq
  deriving DecidableEq, Repr

inductive MbufPtr where
  | head (h : Head)
  | mbuf (n : ℕ)
  deriving DecidableEq, Repr

/-- `M_FREELIST`, `M_USEDLIST` and `M_DOFREE` of `m_flags`. -/
structure MFlags where
  freelist : Bool
  usedlist : Bool
  dofree : Bool
  deriving DecidableEq, Repr

/-- What the queues read of a `struct socket`. -/
structure Socket where
  soIptos : UInt8
  soQueued : ℤ
  soNqueued : ℤ

/-- A packet as `if_encap` gets it, with the buffer it was in and the socket it was queued for. -/
structure Packet where
  so : Option ℕ
  m : MbufPtr
  data : List UInt8
  deriving DecidableEq, Repr

/-- The buffers, the sockets and the global variables. -/
structure IfState where
  q : Links MbufPtr
  pkt : Links MbufPtr
  mFlags : MbufPtr → MFlags
  mSo : MbufPtr → Option ℕ
  mData : MbufPtr → List UInt8
  /-- The buffers that `malloc` has given. -/
  heap : MbufPtr → Bool
  mbufAlloced : ℤ
  sockets : ℕ → Socket
  ifQueued : ℤ
  nextM : Option MbufPtr
  /-- The packets that were passed to `if_encap`. -/
  sent : List Packet

namespace IfState

variable (s : IfState)

def insque (e h : MbufPtr) : Option IfState := do
  let q ← s.q.insque e h
  return { s with q := q }

def remque (e : MbufPtr) : Option IfState := do
  let q ← s.q.remque e
  return { s with q := q }

def mbufThresh : ℤ := 30

/-- A buffer from the free list, or from `malloc`, whose answer is `fresh`; and whether it is to be given back. -/
def mTake (fresh : Option ℕ) : Option (Option (MbufPtr × Bool × IfState)) := do
  let first ← s.q.next (.head .freelist)
  if first = .head .freelist then
    match fresh with
    | none => return none
    | some n =>
      let alloced := s.mbufAlloced + 1
      return some (.mbuf n, alloced > mbufThresh,
        { s with mbufAlloced := alloced, heap := update s.heap (.mbuf n) true })
  else
    let s ← s.remque first
    return some (first, false, s)

def mGet (fresh : Option ℕ) : Option (Option MbufPtr × IfState) := do
  match ← s.mTake fresh with
  | none => return (none, s)
  | some (m, dofree, s) =>
    let s ← s.insque m (.head .usedlist)
    return (some m, { s with
      mFlags := update s.mFlags m ⟨false, true, dofree⟩
      mData := update s.mData m []
      pkt := ⟨update s.pkt.next m none, update s.pkt.prev m none⟩ })

/-- The end of `m_free`: the buffer is given back or put on the free list. -/
def mRelease (m : MbufPtr) (flags : MFlags) : Option IfState :=
  if flags.dofree then
    return { s with heap := update s.heap m false, mbufAlloced := s.mbufAlloced - 1 }
  else if flags.freelist then return s
  else do
    let s ← s.insque m (.head .freelist)
    return { s with mFlags := update s.mFlags m ⟨true, false, false⟩ }

def mFree (m : MbufPtr) : Option IfState := do
  let flags := s.mFlags m
  let s ← if flags.usedlist then s.remque m else some s
  s.mRelease m flags

/-- `ifs_insque`. -/
def ifsInsque (ifm ifmhead : MbufPtr) : Option IfState := do
  let pkt ← s.pkt.insque ifm ifmhead
  return { s with pkt := pkt }

/-- `ifs_remque`. -/
def ifsRemque (ifm : MbufPtr) : Option IfState := do
  let p ← s.pkt.prev ifm
  let next := update s.pkt.next p (s.pkt.next ifm)
  let n ← next ifm
  return { s with pkt := ⟨next, update s.pkt.prev n (s.pkt.prev ifm)⟩ }

/-- `ifs_init`. -/
def ifsInit (ifm : MbufPtr) : IfState :=
  { s with pkt := ⟨update s.pkt.next ifm (some ifm), update s.pkt.prev ifm (some ifm)⟩ }

/-- The loop of `if_output` over the sessions of `if_batchq`, from the last one on. -/
def findBatch (so : Option ℕ) : ℕ → MbufPtr → Option (Option MbufPtr)
  | 0, _ => none
  | fuel + 1, ifq =>
    if ifq = .head .batchq then some none
    else if so = s.mSo ifq then some (some ifq)
    else do
      let ifq ← s.q.prev ifq
      findBatch so fuel ifq

/-- `if (--ifm->ifq_so->so_queued == 0) ifm->ifq_so->so_nqueued = 0`. -/
def unqueue (so : Socket) : Socket :=
  { so with soQueued := so.soQueued - 1, soNqueued := if so.soQueued - 1 = 0 then 0 else so.soNqueued }

/-- The packet to send: the first of `if_fastq`, or the one at `next_m`, which then moves on. -/
def ifChoose : Option (MbufPtr × IfState) := do
  let first ← s.q.next (.head .fastq)
  if first ≠ .head .fastq then return (first, s)
  else
    let ifm ← if s.nextM ≠ some (.head .batchq) then s.nextM else s.q.next (.head .batchq)
    return (ifm, { s with nextM := s.q.next ifm })

/-- `ifm` is taken from its queue; what is left of its session is queued in its place. -/
def ifDequeue (ifm : MbufPtr) : Option IfState := do
  let ifqt ← s.q.prev ifm
  let s ← s.remque ifm
  let s := { s with ifQueued := s.ifQueued - 1 }
  let next ← s.pkt.next ifm
  if next ≠ ifm then
    let s ← s.insque next ifqt
    s.ifsRemque ifm
  else return s

/-- The counters of the socket of `ifm`, and `if_encap`. -/
def ifEncap (ifm : MbufPtr) : IfState :=
  let s := match s.mSo ifm with
    | none => s
    | some so => { s with sockets := update s.sockets so (unqueue (s.sockets so)) }
  let packet : Packet := ⟨s.mSo ifm, ifm, s.mData ifm⟩
  { s with sent := s.sent ++ [packet] }

/-- One round of the loop of `if_start`, after `slirp_can_output` has agreed. -/
def ifStartOne : Option IfState := do
  let (ifm, s) ← s.ifChoose
  let s ← s.ifDequeue ifm
  (s.ifEncap ifm).mFree ifm

/-- The loop of `if_start`; the list has the answers of `slirp_can_output`, which says no when they run out. -/
def ifStartLoop : List Bool → IfState → Option IfState
  | true :: answers, s => do
    let s ← s.ifStartOne
    if s.ifQueued ≠ 0 then ifStartLoop answers s else return s
  | _, s => some s

def ifStart (answers : List Bool) : Option IfState := if s.ifQueued = 0 then some s else ifStartLoop answers s

def iptosLowdelay : UInt8 := 0x10

/-- `so && (so->so_iptos & IPTOS_LOWDELAY)`. -/
def lowdelay (so : Option ℕ) : Bool :=
  match so with
  | none => false
  | some so => (s.sockets so).soIptos &&& iptosLowdelay ≠ 0

/-- `ifm` comes to the end of the session that `ifq` is the first packet of. -/
def joinSession (so : Option ℕ) (ifm ifq : MbufPtr) : Option IfState := do
  let s := { s with mSo := update s.mSo ifm so }
  let last ← s.pkt.prev ifq
  s.ifsInsque ifm last

/-- `ifm` is the first packet of a new session, behind `ifq`. -/
def newSession (so : Option ℕ) (ifm ifq : MbufPtr) : Option IfState :=
  let s := { s with mSo := update s.mSo ifm so }
  (s.ifsInit ifm).insque ifm ifq

/-- `if_output` up to the label `diddit`. A loop over more sessions than there are packets does not end. -/
def ifEnqueue (so : Option ℕ) (ifm : MbufPtr) : Option IfState := do
  let last ← s.q.prev (.head .batchq)
  match ← s.findBatch so (s.ifQueued.toNat + 1) last with
  | some ifq => s.joinSession so ifm ifq
  | none =>
    if s.lowdelay so then
      let ifq ← s.q.prev (.head .fastq)
      if s.mSo ifq = so then s.joinSession so ifm ifq else s.newSession so ifm ifq
    else
      let ifq ← s.q.prev (.head .batchq)
      s.newSession so ifm ifq

/-- The session of `ifm` goes to the front of `if_batchq`. -/
def downgrade (ifm : MbufPtr) : Option IfState := do
  let first ← s.pkt.next ifm
  let s ← s.remque first
  s.insque first (.head .batchq)

/-- `if_output` from the label `diddit` on, without `if_start`. `on_fastq` is always 1. -/
def ifCount (so : Option ℕ) (ifm : MbufPtr) : Option IfState :=
  let s := { s with ifQueued := s.ifQueued + 1 }
  match so with
  | none => some s
  | some so =>
    let old := s.sockets so
    let sock : Socket := { old with soQueued := old.soQueued + 1, soNqueued := old.soNqueued + 1 }
    let s := { s with sockets := update s.sockets so sock }
    if 6 ≤ sock.soNqueued ∧ 3 ≤ sock.soNqueued - sock.soQueued then s.downgrade ifm else some s

/-- `ifm` is removed from `m_usedlist`. -/
def ifDetach (ifm : MbufPtr) : Option IfState :=
  if (s.mFlags ifm).usedlist then do
    let s ← s.remque ifm
    return { s with mFlags := update s.mFlags ifm { s.mFlags ifm with usedlist := false } }
  else some s

/-- `if_output`. -/
def ifOutput (linkUp : Bool) (answers : List Bool) (so : Option ℕ) (ifm : MbufPtr) : Option IfState := do
  let s ← s.ifDetach ifm
  let s ← s.ifEnqueue so ifm
  let s ← s.ifCount so ifm
  if linkUp then s.ifStart answers else return s

end IfState

/-- What the rest of the network does with the buffers and the queues. -/
inductive Event where
  | get (fresh : Option ℕ)
  | free (m : MbufPtr)
  | tos (so : ℕ) (iptos : UInt8)
  /-- `if_output` of a buffer that has been filled. -/
  | output (so : Option ℕ) (m : MbufPtr) (data : List UInt8) (linkUp : Bool) (answers : List Bool)
  | start (answers : List Bool)

/-- What the callers keep to: a buffer that is freed or queued is one that they got and still have, and `malloc` gives
memory that is not in use. -/
def Event.Allowed (s : IfState) : Event → Prop
  | .get fresh => ∀ n ∈ fresh, s.heap (.mbuf n) = false
  | .free m => s.heap m ∧ (s.mFlags m).usedlist
  | .output _ m _ _ _ => s.heap m ∧ (s.mFlags m).usedlist
  | _ => True

def step (s : IfState) : Event → Option IfState
  | .get fresh => (s.mGet fresh).map Prod.snd
  | .free m => s.mFree m
  | .tos so iptos => some { s with sockets := update s.sockets so { s.sockets so with soIptos := iptos } }
  | .output so m data linkUp answers =>
    { s with mData := update s.mData m data }.ifOutput linkUp answers so m
  | .start answers => s.ifStart answers

/-- The packets that an event gives to `if_output`. -/
def Event.given : Event → List Packet
  | .output so m data _ _ => [⟨so, m, data⟩]
  | _ => []

/-- After `m_init` and `if_init`. -/
structure Initial (s : IfState) : Prop where
  next : ∀ h, s.q.next (.head h) = some (.head h)
  prev : ∀ h, s.q.prev (.head h) = some (.head h)
  heap : ∀ p, s.heap p = false
  headSo : s.mSo (.head .fastq) = none
  ifQueued : s.ifQueued = 0
  nextM : s.nextM = some (.head .batchq)
  sent : s.sent = []

/-- The states that are reached, with the packets that were given to `if_output` on the way. -/
inductive Reach (s₀ : IfState) : List Packet → IfState → Prop
  | init : Reach s₀ [] s₀
  | step {given s s'} (ev : Event) (h : Reach s₀ given s) (ha : ev.Allowed s) (hs : step s ev = some s') :
      Reach s₀ (given ++ ev.given) s'

end Emulator.Slirp
