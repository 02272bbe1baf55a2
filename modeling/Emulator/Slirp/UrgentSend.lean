import Emulator.Slirp.SocketBuffer

/-!
# Urgent data (`sosendoob` of `socket.c`)

`sosendoob` sends the first `so_urgc` octets of the ring as urgent data. With the contents in a row it passes `so_urgc`
octets, however few there are, and takes the result of the call from its counters even if it is `-1`. With the contents
in two pieces it lowers `so_urgc` by what it asks for, not by what is sent, and it sends from an empty ring.

* `sosendoob_iff`: when the ring and the count come out right, whoever calls it.
-/

namespace Emulator.Slirp.Sockbuf

open Emulator.Lib Option

/-- **Urgent data is sent rightly** when `socket_send_oob` returns `n`: what it gets is at the front of the ring, and
what it accepts is taken from the ring and from `so_urgc`. -/
def OobRight (so : Socket) (n : ℤ) : Prop :=
  (0 ≤ so.oobRequest.1 ∧ so.oobRequest.1 ≤ so.sb.cc ∧ so.oobRequest.2 = so.sb.contents.take so.oobRequest.1.toNat) ∧
    ∃ so', sosendoob so n = some so' ∧ so.sb.Holds so'.sb (so.sb.contents.drop n.toNat) ∧
      so'.urgc = so.urgc - max n 0

/-- The call does not fail, and there is no more urgent data than 2048 octets, nor than the contents of a ring that is
in a row; of two pieces, all is sent that is asked for, and they are not empty. -/
def OobFits (so : Socket) (n : ℤ) : Prop :=
  0 ≤ so.urgc ∧ so.urgc ≤ 2048 ∧ 0 ≤ n ∧
    if so.sb.rptr < so.sb.wptr then so.urgc ≤ so.sb.cc
    else n = min so.urgc so.sb.cc ∧ (so.urgc = 0 ∨ 0 < so.sb.cc)

variable {so : Socket} {n : ℤ}

/-- The length of the request: all of `so_urgc`, or of what is there in two pieces. -/
theorem oobRequest_len (hok : so.sb.Ok) : so.oobRequest.1 =
    if so.sb.rptr < so.sb.wptr then so.oobCount
    else min so.oobCount ((so.sb.datalen : ℤ) - so.sb.rptr + so.sb.wptr) := by
  have hr := hok.rptr
  unfold Socket.oobRequest
  by_cases hlt : so.sb.rptr < so.sb.wptr
  · rw [if_pos hlt, if_pos hlt]
  · rw [if_neg hlt, if_neg hlt]
    by_cases hone : so.oobCount - min ((so.sb.datalen : ℤ) - so.sb.rptr) so.oobCount = 0
    · simp only [hone, ne_eq, not_true, if_false]
      omega
    · simp only [hone, ne_eq, not_false_eq_true, if_true]
      omega

/-- A request within the contents is for their front. -/
theorem oobRequest_front (hok : so.sb.Ok) (h0 : 0 ≤ so.oobRequest.1) (hle : so.oobRequest.1 ≤ so.sb.cc) :
    so.oobRequest.2 = so.sb.contents.take so.oobRequest.1.toNat := by
  have hr := hok.rptr
  have hc := hok.cc_le
  have hw := hok.wptr
  have hlen := oobRequest_len hok
  have hwle := hok.wptr_le
  rw [Sbuf.contents, ringList_take (by omega)]
  unfold ringAt at hw
  by_cases hlt : so.sb.rptr < so.sb.wptr
  · have hrow : so.sb.rptr + so.sb.cc ≤ so.sb.datalen := by split_ifs at hw <;> omega
    rw [ringList_linear (by omega)]
    simp only [Socket.oobRequest, if_pos hlt]
  · rw [if_neg hlt] at hlen
    by_cases hone : so.oobCount - min ((so.sb.datalen : ℤ) - so.sb.rptr) so.oobCount = 0
    · have hrow : so.oobCount ≤ (so.sb.datalen : ℤ) - so.sb.rptr := by omega
      simp only [Socket.oobRequest, if_neg hlt, hone, ne_eq, not_true, if_false] at h0 ⊢
      rw [ringList_linear (by omega)]
    · have hmin : min ((so.sb.datalen : ℤ) - so.sb.rptr) so.oobCount = (so.sb.datalen - so.sb.rptr : ℕ) := by omega
      obtain ⟨k, hk⟩ : ∃ k : ℕ, min (so.sb.wptr : ℤ) (so.oobCount - (so.sb.datalen - so.sb.rptr : ℕ)) = k :=
        ⟨_, (Int.toNat_of_nonneg (by omega)).symm⟩
      have hwrap := @ringList_wrap _ so.sb.data so.sb.datalen so.sb.rptr (so.sb.datalen - so.sb.rptr) k (by omega)
      rw [hmin] at hone
      simp only [Socket.oobRequest, if_neg hlt, hmin, hone, hk, ne_eq, not_false_eq_true, if_true, ← Nat.cast_add,
        Int.toNat_natCast, hwrap]

/-- What a call takes from the ring, if it takes no more than there is. -/
theorem sosendoob_ring (hok : so.sb.Ok) (h0 : 0 ≤ n) (hle : n ≤ so.sb.cc) :
    ∃ so', sosendoob so n = some so' ∧ so.sb.Holds so'.sb (so.sb.contents.drop n.toNat) ∧
      so'.urgc = if so.sb.rptr < so.sb.wptr then so.oobCount - n else so.oobCount - so.oobRequest.1 := by
  obtain ⟨k, rfl⟩ := Int.eq_ofNat_of_zero_le h0
  simp only [sosendoob, advance_natCast, bind_eq_bind, bind_some, Int.toNat_natCast]
  exact ⟨_, rfl, hok.take (by omega), rfl⟩

/-- A failed call adds an octet to the counter. -/
theorem sosendoob_failed (hok : so.sb.Ok) {so' : Socket} (h : sosendoob so (-1) = some so') :
    so'.sb.cc = so.sb.cc + 1 := by
  have hint := hok.int
  have hc := hok.cc_le
  simp only [sosendoob, bind_eq_bind, bind_eq_some_iff] at h
  obtain ⟨r, -, h⟩ := h
  obtain rfl := Option.some.inj h
  change uint ((so.sb.cc : ℤ) - -1) = so.sb.cc + 1
  rw [sub_neg_eq_add, ← Nat.cast_one, ← Nat.cast_add, uint_natCast (by omega)]

/-- **When urgent data is sent rightly**, for one call. -/
theorem oobRight_iff (hok : so.sb.Ok) (hsize : 0 < so.sb.datalen) (hn : -1 ≤ n) (hreq : n ≤ so.oobRequest.1) :
    OobRight so n ↔ OobFits so n := by
  have hr := hok.rptr
  have hc := hok.cc_le
  have hw := hok.wptr
  have hlen := oobRequest_len hok
  have hcount : so.oobCount = min so.urgc 2048 := by
    unfold Socket.oobCount
    split_ifs <;> omega
  -- in two pieces, or none, the octets are those from `sb_rptr` to the end and from the start to `sb_wptr`
  have hpieces : ¬ so.sb.rptr < so.sb.wptr → so.sb.cc = 0 ∧ so.sb.rptr = so.sb.wptr ∨
      0 < so.sb.cc ∧ (so.sb.cc : ℤ) = (so.sb.datalen : ℤ) - so.sb.rptr + so.sb.wptr := by
    unfold ringAt at hw
    split_ifs at hw <;> omega
  unfold OobRight OobFits
  constructor
  · rintro ⟨⟨h0, hle, -⟩, so', hrun, hholds, hurgc⟩
    have hn0 : 0 ≤ n := by
      by_contra hneg
      obtain rfl : n = -1 := by omega
      have hcc := sosendoob_failed hok hrun
      have hlen := congrArg List.length hholds.contents
      rw [length_contents, List.length_drop, length_contents] at hlen
      omega
    obtain ⟨so'', hrun', -, hurgc'⟩ := sosendoob_ring hok hn0 (by omega)
    obtain rfl := Option.some.inj (hrun.symm.trans hrun')
    rw [hurgc] at hurgc'
    split_ifs at hurgc' hlen ⊢ with hlt
    · omega
    · have hboth := hpieces hlt
      omega
  · rintro ⟨h0, h2048, hn0, hfits⟩
    have hle : 0 ≤ so.oobRequest.1 ∧ so.oobRequest.1 ≤ so.sb.cc ∧
        (¬ so.sb.rptr < so.sb.wptr → n = so.oobRequest.1) := by
      rw [hlen]
      split_ifs at hfits ⊢ with hlt
      · omega
      · have hboth := hpieces hlt
        omega
    obtain ⟨so', hrun, hholds, hurgc⟩ := sosendoob_ring hok hn0 (by omega)
    refine ⟨⟨hle.1, hle.2.1, oobRequest_front hok hle.1 hle.2.1⟩, so', hrun, hholds, ?_⟩
    rw [hurgc]
    split_ifs with hlt
    · omega
    · have hsame := hle.2.2 hlt
      omega

/-- A call of `sosendoob`, alone or from the functions that send to the host. -/
inductive Caller where
  | alone
  | sbappend (m : List UInt8) (ret : ℤ)
  | sowrite (nn ret : ℤ)

/-- When `sosendoob` is called: there is urgent data, and something to append for which there is room. -/
def Caller.Calls (so : Socket) : Caller → Prop
  | alone => True
  | sbappend m _ => so.urgc ≠ 0 ∧ m ≠ [] ∧ so.sb.cc + m.length ≤ so.sb.datalen
  | sowrite _ _ => so.urgc ≠ 0

/-- The whole call, where `socket_send_oob` returns `n`. -/
def Caller.run (so : Socket) (n : ℤ) : Caller → Option Socket
  | alone => sosendoob so n
  | sbappend m ret => Sockbuf.sbappend so m ret n
  | sowrite nn ret => Sockbuf.sowrite so nn ret n

/-- The socket that `sosendoob` is called with. -/
def Caller.socket (so : Socket) : Caller → Option Socket
  | sbappend m _ => (sbappendsb so.sb m).map fun sb => { so with sb := sb }
  | _ => some so

/-- What the caller does behind `sosendoob`. -/
def Caller.rest : Caller → Socket → Option Socket
  | sowrite nn ret, so => if so.sb.cc = 0 then some so else sowriteRest so nn ret
  | _, so => some so

/-- **When urgent data is sent rightly**: `sosendoob` is called on a ring in a good state, and this is the condition on
the ring, the count and the result of `socket_send_oob`. -/
theorem sosendoob_iff (so : Socket) (c : Caller) (hok : so.sb.Ok) (hsize : 0 < so.sb.datalen) (hc : c.Calls so) :
    ∃ so', c.socket so = some so' ∧ so'.sb.Ok ∧ (∀ n, c.run so n = (sosendoob so' n).bind c.rest) ∧
      ∀ n, -1 ≤ n → n ≤ so'.oobRequest.1 → (OobRight so' n ↔ OobFits so' n) := by
  cases c with
  | alone =>
    exact ⟨so, rfl, hok, fun n => (bind_fun_some _).symm, fun n hn hreq => oobRight_iff hok hsize hn hreq⟩
  | sbappend m ret =>
    obtain ⟨hurgc, hne, hroom⟩ := hc
    obtain ⟨sb', hrun, hholds⟩ := sbappendsb_ok hok hne hroom
    have hsize' : 0 < sb'.datalen := by rwa [hholds.datalen]
    refine ⟨⟨sb', so.urgc⟩, by rw [Caller.socket, hrun]; rfl, hholds.ok, fun n => ?_, fun n hn hreq =>
      oobRight_iff hholds.ok hsize' hn hreq⟩
    simp only [Caller.run, Sockbuf.sbappend, if_neg hne, if_pos hurgc, hrun, bind_eq_bind, bind_some]
    exact (bind_fun_some _).symm
  | sowrite nn ret =>
    refine ⟨so, rfl, hok, fun n => ?_, fun n hn hreq => oobRight_iff hok hsize hn hreq⟩
    simp only [Caller.run, Sockbuf.sowrite, if_pos (show so.urgc ≠ 0 from hc)]
    rfl

/-- Two octets are in the ring, one of them urgent. -/
def twoOctets : Socket := ⟨⟨2, 8, 3, 1, fun _ => 7⟩, 1⟩

/-- The urgent octet is accepted. -/
theorem sosendoob_iff_two : twoOctets.sb.Ok ∧ 0 < twoOctets.sb.datalen ∧ OobRight twoOctets 1 := by
  have hok : twoOctets.sb.Ok := ⟨by decide, by decide, .inl (by decide), by decide⟩
  obtain ⟨so', hso, -, -, hiff⟩ := sosendoob_iff twoOctets .alone hok (by decide) trivial
  obtain rfl := Option.some.inj hso
  exact ⟨hok, by decide, (hiff 1 (by decide) (by decide)).2 ⟨by decide, by decide, by decide, by decide⟩⟩

/-- **A failed call** puts an octet into the ring that nobody appended. -/
theorem sosendoob_eagain : twoOctets.sb.Ok ∧ -1 ≤ twoOctets.oobRequest.1 ∧ ¬ OobRight twoOctets (-1) := by
  refine ⟨⟨by decide, by decide, .inl (by decide), by decide⟩, by decide, ?_⟩
  rintro ⟨-, so', hrun, hholds, -⟩
  have hlen := congrArg List.length hholds.contents
  obtain rfl := Option.some.inj hrun
  exact absurd hlen (by decide)

end Emulator.Slirp.Sockbuf
