import Emulator.Lib.RingBuffer
import Mathlib.Data.Int.Cast.Lemmas

/-!
# Socket buffers (`sbuf.c`, and `soread`, `sowrite` and `sosendoob` of `socket.c`)

A `struct sbuf` is a ring. Its pointers are offsets from `sb_data`; the memory there is a function, of which the first
`sb_datalen` octets belong to the buffer. The sizes are those of an `int`, and `sb_cc` is a `u_int`.

Of a call to the host the model has the answer: what was accepted or received, or a value of zero or less for an end or
an error, at which the buffer is left alone. `HAVE_READV` is not defined, so a transfer is made in two calls.

* `Event.run_ok`: a call on the buffer is one on a queue;
* `Reach.fifo`: in every run the contents are what came to the buffer and did not leave it, in that order.
-/

namespace Emulator.Slirp.Sockbuf

open Emulator.Lib List Option

structure Sbuf where
  cc : ℕ
  datalen : ℕ
  wptr : ℕ
  rptr : ℕ
  data : ℕ → UInt8

/-- A value as a `u_int`. -/
def uint (x : ℤ) : ℕ := (x % 4294967296).toNat

/-- `ptr += n; if (ptr >= sb_data + sb_datalen) ptr -= sb_datalen;`, or `none` for a pointer in front of the buffer. -/
def Sbuf.advance (sb : Sbuf) (ptr : ℕ) (n : ℤ) : Option ℕ :=
  if ptr + n < 0 then none
  else some (if sb.datalen ≤ (ptr + n).toNat then (ptr + n).toNat - sb.datalen else (ptr + n).toNat)

/-- `sbreserve` on a socket that has no buffer yet: `mem` is the memory that `malloc` gives. -/
def sbreserve (size : ℕ) (mem : ℕ → UInt8) : Sbuf := ⟨0, size, 0, 0, mem⟩

def sbdrop (sb : Sbuf) (num : ℤ) : Option Sbuf := do
  -- the comparison is unsigned
  let num := if uint num > sb.cc then (sb.cc : ℤ) else num
  some { sb with cc := uint (sb.cc - num), rptr := ← sb.advance sb.rptr num }

def sbappendsb (sb : Sbuf) (m : List UInt8) : Option Sbuf := do
  let (n, data) :=
    if sb.wptr < sb.rptr then
      let n := min (sb.rptr - sb.wptr) m.length
      (n, store sb.data sb.wptr (m.take n))
    else
      let n := min (sb.datalen - sb.wptr) m.length
      let data := store sb.data sb.wptr (m.take n)
      let len := m.length - n
      if len ≠ 0 then
        let nn := min sb.rptr len
        (n + nn, store data 0 ((m.drop n).take nn))
      else (n, data)
  some { sb with data := data, cc := uint (sb.cc + n), wptr := ← sb.advance sb.wptr n }

def sbcopy (sb : Sbuf) (off len : ℕ) : List UInt8 :=
  let src := sb.rptr + off
  let src := if sb.datalen ≤ src then src - sb.datalen else src
  if src < sb.wptr then load sb.data src (min len sb.cc)
  else
    let off := min (sb.datalen - src) len
    load sb.data src off ++ load sb.data 0 (len - off)

/-- `sopreprbuf`: the lengths of the two pieces, and how many are used. Nothing is set when there is no room. -/
def sopreprbuf (sb : Sbuf) (mss : ℕ) : Option (ℕ × ℕ × ℕ) :=
  let len := sb.datalen - sb.cc
  let whole (l : ℕ) := if l > mss then l - l % mss else l
  if len = 0 then none
  else if sb.wptr < sb.rptr then some (whole (min (sb.rptr - sb.wptr) len), 0, 1)
  else
    let l0 := min (sb.datalen - sb.wptr) len
    let len := len - l0
    if len ≠ 0 then
      let l1 := min sb.rptr len
      if l0 + l1 > mss then
        let lss := (l0 + l1) % mss
        if l1 > lss then some (l0, l1 - lss, 2) else some (l0 - (lss - l1), l1, 1)
      else some (l0, l1, 2)
    else some (whole l0, 0, 1)

/-- The octets that the calls of `soread` bring: of the second call only if the first one filled its piece. -/
def received (l0 n : ℕ) (first second : List UInt8) : List UInt8 :=
  if first = [] then [] else if n = 2 ∧ first.length = l0 then first ++ second else first

/-- `soread`, with what the two calls to `socket_recv` bring: no octet is the end or an error. -/
def soread (sb : Sbuf) (mss : ℕ) (first second : List UInt8) : Option Sbuf := do
  let (l0, _, n) ← sopreprbuf sb mss
  if first = [] then some sb
  else
    let data := store sb.data sb.wptr first
    let data := if n = 2 ∧ first.length = l0 then store data 0 second else data
    let nn := (received l0 n first second).length
    some { sb with data := data, cc := uint (sb.cc + nn), wptr := ← sb.advance sb.wptr nn }

/-- A socket, as far as it is about sending to the host: `so_rcv` and `so_urgc`. -/
structure Socket where
  sb : Sbuf
  urgc : ℤ

/-- `so_urgc` as `sosendoob` uses it. -/
def Socket.oobCount (so : Socket) : ℤ := if so.urgc > 2048 then 2048 else so.urgc

/-- What `sosendoob` passes to `socket_send_oob`: the length, and the octets there. -/
def Socket.oobRequest (so : Socket) : ℤ × List UInt8 :=
  if so.sb.rptr < so.sb.wptr then (so.oobCount, load so.sb.data so.sb.rptr so.oobCount.toNat)
  else
    let len := min ((so.sb.datalen : ℤ) - so.sb.rptr) so.oobCount
    if so.oobCount - len ≠ 0 then
      let n := min (so.sb.wptr : ℤ) (so.oobCount - len)
      (len + n, load so.sb.data so.sb.rptr len.toNat ++ load so.sb.data 0 n.toNat)
    else (len, load so.sb.data so.sb.rptr len.toNat)

/-- `sosendoob`, where `socket_send_oob` returns `n`. -/
def sosendoob (so : Socket) (n : ℤ) : Option Socket := do
  let urgc := if so.sb.rptr < so.sb.wptr then so.oobCount - n else so.oobCount - so.oobRequest.1
  some ⟨{ so.sb with cc := uint (so.sb.cc - n), rptr := ← so.sb.advance so.sb.rptr n }, urgc⟩

/-- `sbappend`, where `slirp_send` returns `ret` and `socket_send_oob` returns `n`. -/
def sbappend (so : Socket) (m : List UInt8) (ret n : ℤ) : Option Socket := do
  if m = [] then some so
  else if so.urgc ≠ 0 then sosendoob { so with sb := ← sbappendsb so.sb m } n
  else
    let ret := if so.sb.cc = 0 then ret else 0
    if ret ≤ 0 then some { so with sb := ← sbappendsb so.sb m }
    else if ret ≠ m.length then some { so with sb := ← sbappendsb so.sb (m.drop ret.toNat) }
    else some so

/-- The pieces that `sowrite` sends, and how many there are. -/
def Sbuf.pieces (sb : Sbuf) : List UInt8 × List UInt8 × ℕ :=
  if sb.rptr < sb.wptr then (load sb.data sb.rptr (min (sb.wptr - sb.rptr) sb.cc), [], 1)
  else
    let l0 := min (sb.datalen - sb.rptr) sb.cc
    let len := sb.cc - l0
    if len ≠ 0 then (load sb.data sb.rptr l0, load sb.data 0 (min sb.wptr len), 2)
    else (load sb.data sb.rptr l0, [], 1)

/-- How much the two calls of `socket_send` accept. -/
def accepted (first : List UInt8) (n : ℕ) (nn ret : ℤ) : ℤ :=
  if n = 2 ∧ nn = first.length ∧ ret > 0 then nn + ret else nn

/-- `sowrite` behind the urgent data, where the two calls to `socket_send` return `nn` and `ret`. -/
def sowriteRest (so : Socket) (nn ret : ℤ) : Option Socket := do
  let (first, _, n) := so.sb.pieces
  if nn ≤ 0 then some so
  else
    let nn := accepted first n nn ret
    some { so with sb := { so.sb with cc := uint (so.sb.cc - nn), rptr := ← so.sb.advance so.sb.rptr nn } }

/-- `sowrite`, where `socket_send_oob` returns `oob`. -/
def sowrite (so : Socket) (nn ret oob : ℤ) : Option Socket := do
  if so.urgc ≠ 0 then
    let so ← sosendoob so oob
    if so.sb.cc = 0 then some so else sowriteRest so nn ret
  else sowriteRest so nn ret

/-- **The state of a ring**: the pointers are in the buffer (which may be of no size at all), and `sb_wptr` is behind
the contents. -/
structure Sbuf.Ok (sb : Sbuf) : Prop where
  int : sb.datalen < 2147483648
  cc_le : sb.cc ≤ sb.datalen
  rptr : sb.rptr < sb.datalen ∨ sb.datalen = 0 ∧ sb.rptr = 0
  wptr : sb.wptr = ringAt sb.datalen sb.rptr sb.cc

/-- The octets from `sb_rptr` on. -/
def Sbuf.contents (sb : Sbuf) : List UInt8 := ringList sb.datalen sb.data sb.rptr sb.cc

/-- `sb'` is a good state of the same buffer, with the contents `q`. -/
structure Sbuf.Holds (sb sb' : Sbuf) (q : List UInt8) : Prop where
  ok : sb'.Ok
  contents : sb'.contents = q
  datalen : sb'.datalen = sb.datalen

variable {sb sb' : Sbuf} {m : List UInt8}

theorem uint_natCast {n : ℕ} (h : n < 4294967296) : uint n = n := by
  unfold uint
  omega

@[simp] theorem length_contents (sb : Sbuf) : sb.contents.length = sb.cc := length_ringList _ _ _ _

theorem advance_natCast (sb : Sbuf) (p n : ℕ) : sb.advance p n = some (ringAt sb.datalen p n) := by
  rw [Sbuf.advance, if_neg (by omega), Option.some.injEq, ← Nat.cast_add, Int.toNat_natCast, ringAt]
  split_ifs <;> omega

theorem Sbuf.Ok.holds (h : sb.Ok) : sb.Holds sb sb.contents := ⟨h, rfl, rfl⟩

theorem Sbuf.Ok.wptr_le (h : sb.Ok) : sb.wptr ≤ sb.datalen := by
  have hw := h.wptr
  have hc := h.cc_le
  have hr := h.rptr
  unfold ringAt at hw
  split_ifs at hw <;> omega

/-- Octets stored behind the contents, in one piece or in two. -/
theorem Sbuf.Ok.put (h : sb.Ok) {a b : List UInt8} (hne : a ≠ []) (hroom : sb.cc + (a.length + b.length) ≤ sb.datalen)
    (ha : sb.wptr + a.length ≤ sb.datalen) (hb : b = [] ∨ sb.wptr + a.length = sb.datalen) {n : ℕ}
    (hn : n = a.length + b.length) :
    sb.Holds { sb with
      data := store (store sb.data sb.wptr a) 0 b
      cc := uint ((sb.cc : ℤ) + n)
      wptr := ringAt sb.datalen sb.wptr n } (sb.contents ++ (a ++ b)) := by
  have hpos := length_pos_iff.2 hne
  have hint := h.int
  have hr : sb.rptr < sb.datalen := by
    have hr := h.rptr
    omega
  rw [← Nat.cast_add, uint_natCast (by omega), hn]
  rw [h.wptr] at ha hb ⊢
  refine ⟨⟨hint, hroom, h.rptr, ?_⟩, ringList_put hr hroom ha hb, rfl⟩
  unfold ringAt at ha ⊢
  simp only
  split_ifs at ha ⊢ <;> omega

/-- Octets taken off at the front. -/
theorem Sbuf.Ok.take (h : sb.Ok) {n : ℕ} (hn : n ≤ sb.cc) :
    sb.Holds { sb with cc := uint ((sb.cc : ℤ) - n), rptr := ringAt sb.datalen sb.rptr n } (sb.contents.drop n) := by
  have hint := h.int
  have hc := h.cc_le
  have hw := h.wptr
  rw [← Nat.cast_sub hn, uint_natCast (by omega)]
  rcases h.rptr with hr | ⟨hsize, hr⟩
  · refine ⟨⟨hint, Nat.le_trans (Nat.sub_le _ _) hc, .inl (ringAt_lt hr (by omega)), ?_⟩, ?_, rfl⟩
    · unfold ringAt at hw ⊢
      simp only
      split_ifs at hw ⊢ <;> omega
    · have hdrop := @ringList_drop _ sb.data sb.datalen sb.rptr n (sb.cc - n) hr (by omega)
      rw [Nat.add_sub_cancel' hn] at hdrop
      exact hdrop
  · have h0 : n = 0 := by omega
    have hcc : sb.cc = 0 := by omega
    rw [h0]
    simp only [ringAt, hsize, hr, hcc, Nat.sub_zero, Nat.add_zero, Nat.lt_irrefl, if_false, drop_zero] at hw ⊢
    refine ⟨⟨by simp, by simp, .inr ⟨rfl, rfl⟩, by simp [ringAt, hw]⟩, ?_, by simp [hsize]⟩
    simp [Sbuf.contents, hcc, ringList]

/-- **Octets for which there is room** are appended. -/
theorem sbappendsb_ok (h : sb.Ok) (hne : m ≠ []) (hroom : sb.cc + m.length ≤ sb.datalen) :
    ∃ sb', sbappendsb sb m = some sb' ∧ sb.Holds sb' (sb.contents ++ m) := by
  have hpos := length_pos_iff.2 hne
  have hr := h.rptr
  have hw := h.wptr
  unfold ringAt at hw
  simp only [sbappendsb, advance_natCast, bind_eq_bind, bind_some]
  by_cases hlt : sb.wptr < sb.rptr
  · -- the free cells are in a row
    have hfree : sb.rptr - sb.wptr = sb.datalen - sb.cc := by split_ifs at hw <;> omega
    have hput := @Sbuf.Ok.put sb h m [] hne hroom (by omega) (.inl rfl) m.length rfl
    rw [store_nil, append_nil] at hput
    simp only [if_pos hlt, Nat.min_eq_right (show m.length ≤ sb.rptr - sb.wptr by omega), take_length]
    exact ⟨_, rfl, hput⟩
  · have hfree : sb.wptr < sb.datalen ∧ sb.datalen - sb.wptr + sb.rptr = sb.datalen - sb.cc := by
      split_ifs at hw <;> omega
    rw [if_neg hlt]
    by_cases hfit : m.length ≤ sb.datalen - sb.wptr
    · have hput := @Sbuf.Ok.put sb h m [] hne hroom (by omega) (.inl rfl) m.length rfl
      rw [store_nil, append_nil] at hput
      simp only [Nat.min_eq_right hfit, Nat.sub_self, ne_eq, not_true, if_false, take_length]
      exact ⟨_, rfl, hput⟩
    · obtain ⟨n, hn⟩ : ∃ n, n = sb.datalen - sb.wptr := ⟨_, rfl⟩
      have hlen : (m.take n).length = n := by
        rw [length_take]
        omega
      have hlen' : (m.drop n).length = m.length - n := length_drop
      have hput := @Sbuf.Ok.put sb h (m.take n) (m.drop n) (length_pos_iff.1 (by omega)) (by omega) (by omega)
        (.inr (by omega)) (n + (m.length - n)) (by omega)
      rw [take_append_drop] at hput
      have hdrop : (m.drop n).take (m.length - n) = m.drop n := by rw [← hlen', take_length]
      rw [← hn, Nat.min_eq_left (show n ≤ m.length by omega), if_pos (show m.length - n ≠ 0 by omega),
        Nat.min_eq_right (show m.length - n ≤ sb.rptr by omega), hdrop]
      exact ⟨_, rfl, hput⟩

/-- **The pieces of `sowrite`** are the contents. -/
theorem pieces_ok (h : sb.Ok) : sb.pieces.1 ++ sb.pieces.2.1 = sb.contents ∧
    (sb.pieces.2.2 = 2 ∨ sb.pieces.2.2 = 1 ∧ sb.pieces.2.1 = []) := by
  have hc := h.cc_le
  have hr := h.rptr
  have hw := h.wptr
  unfold ringAt at hw
  have hlinear (hle : sb.rptr + sb.cc ≤ sb.datalen) : load sb.data sb.rptr sb.cc = sb.contents :=
    (ringList_linear hle).symm
  unfold Sbuf.pieces
  by_cases hlt : sb.rptr < sb.wptr
  · have hle : sb.rptr + sb.cc ≤ sb.datalen ∧ sb.cc ≤ sb.wptr - sb.rptr := by split_ifs at hw <;> omega
    simp [hlt, Nat.min_eq_right hle.2, hlinear hle.1]
  · simp only [if_neg hlt]
    by_cases hfit : sb.cc ≤ sb.datalen - sb.rptr
    · simp [Nat.min_eq_right hfit, hlinear (by omega)]
    · have hmin : min sb.wptr (sb.cc - (sb.datalen - sb.rptr)) = sb.cc - (sb.datalen - sb.rptr) := by
        split_ifs at hw <;> omega
      have hwrap := @ringList_wrap _ sb.data sb.datalen sb.rptr (sb.datalen - sb.rptr)
        (sb.cc - (sb.datalen - sb.rptr)) (by omega)
      rw [Nat.add_sub_cancel' (by omega)] at hwrap
      simp only [Nat.min_eq_left (show sb.datalen - sb.rptr ≤ sb.cc by omega),
        if_pos (show sb.cc - (sb.datalen - sb.rptr) ≠ 0 by omega), hmin]
      exact ⟨hwrap.symm, .inl trivial⟩

/-- What the two calls of `sowrite` accept is at the front of the contents. -/
theorem accepted_ok (h : sb.Ok) {nn ret : ℤ} (hnn : nn ≤ sb.pieces.1.length) (hret : ret ≤ sb.pieces.2.1.length)
    (hpos : 0 < nn) : ∃ n : ℕ, accepted sb.pieces.1 sb.pieces.2.2 nn ret = n ∧ n ≤ sb.cc := by
  have hlen : sb.pieces.1.length + sb.pieces.2.1.length = sb.cc := by
    rw [← length_append, (pieces_ok h).1, length_contents]
  refine ⟨(accepted sb.pieces.1 sb.pieces.2.2 nn ret).toNat, ?_, ?_⟩
  · unfold accepted
    split_ifs <;> omega
  · unfold accepted
    split_ifs <;> omega

theorem sbdrop_ok (h : sb.Ok) {num : ℤ} (hnum : -2147483648 ≤ num ∧ num < 2147483648) :
    ∃ sb' n, sbdrop sb num = some sb' ∧ n = (if uint num > sb.cc then sb.cc else uint num) ∧
      sb.Holds sb' (sb.contents.drop n) := by
  have hint := h.int
  have hc := h.cc_le
  have hle : (if uint num > sb.cc then sb.cc else uint num) ≤ sb.cc := by split_ifs <;> omega
  have heq : (if uint num > sb.cc then (sb.cc : ℤ) else num) = (if uint num > sb.cc then sb.cc else uint num : ℕ) := by
    unfold uint
    split_ifs <;> omega
  refine ⟨_, _, ?_, rfl, h.take hle⟩
  simp only [sbdrop, heq, advance_natCast, bind_eq_bind, bind_some]

/-- **The pieces of `soread`**: no more than there is room for, in one piece, or in two up to the last cell and on from
the first one. -/
theorem sopreprbuf_ok (h : sb.Ok) {mss l0 l1 n : ℕ} (hprep : sopreprbuf sb mss = some (l0, l1, n)) :
    sb.cc < sb.datalen ∧ sb.cc + l0 ≤ sb.datalen ∧ sb.wptr + l0 ≤ sb.datalen ∧
      (n = 2 → sb.cc + (l0 + l1) ≤ sb.datalen ∧ sb.wptr + l0 = sb.datalen) := by
  have hr := h.rptr
  have hw := h.wptr
  unfold ringAt at hw
  have hwhole (l : ℕ) : (if l > mss then l - l % mss else l) ≤ l := by split_ifs <;> omega
  unfold sopreprbuf at hprep
  by_cases hroom : sb.datalen - sb.cc = 0
  · simp [hroom] at hprep
  simp only [if_neg hroom] at hprep
  by_cases hlt : sb.wptr < sb.rptr
  · have hle := hwhole (min (sb.rptr - sb.wptr) (sb.datalen - sb.cc))
    simp only [if_pos hlt, Option.some.injEq, Prod.mk.injEq] at hprep
    obtain ⟨rfl, rfl, rfl⟩ := hprep
    generalize (if _ > mss then _ else _) = l at hle ⊢
    omega
  · have hle := hwhole (min (sb.datalen - sb.wptr) (sb.datalen - sb.cc))
    simp only [if_neg hlt] at hprep
    by_cases hfit : sb.datalen - sb.cc - min (sb.datalen - sb.wptr) (sb.datalen - sb.cc) = 0
    · simp only [hfit, ne_eq, not_true, if_false, Option.some.injEq, Prod.mk.injEq] at hprep
      obtain ⟨rfl, rfl, rfl⟩ := hprep
      generalize (if _ > mss then _ else _) = l at hle ⊢
      omega
    · have hmin : min (sb.datalen - sb.wptr) (sb.datalen - sb.cc) = sb.datalen - sb.wptr := by omega
      have hwlt : sb.wptr ≤ sb.datalen := h.wptr_le
      have hmod := Nat.mod_le (sb.datalen - sb.wptr + min sb.rptr (sb.datalen - sb.cc - (sb.datalen - sb.wptr))) mss
      rw [if_pos hfit, hmin] at hprep
      generalize (sb.datalen - sb.wptr + min sb.rptr (sb.datalen - sb.cc - (sb.datalen - sb.wptr))) % mss =
        lss at hmod hprep
      split_ifs at hprep <;> simp only [Option.some.injEq, Prod.mk.injEq] at hprep <;> omega

theorem soread_ok (h : sb.Ok) {mss l0 l1 n : ℕ} {first second : List UInt8}
    (hprep : sopreprbuf sb mss = some (l0, l1, n)) (hfirst : first.length ≤ l0) (hsecond : second.length ≤ l1) :
    ∃ sb', soread sb mss first second = some sb' ∧ sb.Holds sb' (sb.contents ++ received l0 n first second) := by
  obtain ⟨-, hfit, hend, htwo⟩ := sopreprbuf_ok h hprep
  unfold soread received
  rw [hprep]
  simp only [bind_eq_bind, bind_some, advance_natCast]
  by_cases hnone : first = []
  · simp only [if_pos hnone, append_nil]
    exact ⟨_, rfl, h.holds⟩
  · simp only [if_neg hnone]
    by_cases hboth : n = 2 ∧ first.length = l0
    · obtain ⟨hroom, hwrap⟩ := htwo hboth.1
      simp only [if_pos hboth]
      exact ⟨_, rfl, h.put hnone (by omega) (by omega) (.inr (by omega)) length_append⟩
    · have hput := @Sbuf.Ok.put sb h first [] hnone (by simp; omega) (by omega) (.inl rfl) first.length rfl
      rw [store_nil, append_nil] at hput
      simp only [if_neg hboth]
      exact ⟨_, rfl, hput⟩

/-- **A copy is a slice** of the contents. -/
theorem sbcopy_ok (h : sb.Ok) {off len : ℕ} (hlen : off + len ≤ sb.cc) :
    sbcopy sb off len = (sb.contents.drop off).take len := by
  have hc := h.cc_le
  have hr := h.rptr
  have hw := h.wptr
  rcases Nat.eq_zero_or_pos len with rfl | hpos
  · simp [sbcopy, load]
  have hrlt : sb.rptr < sb.datalen := by omega
  have hslice : (sb.contents.drop off).take len = ringList sb.datalen sb.data (ringAt sb.datalen sb.rptr off) len := by
    have hdrop := @ringList_drop _ sb.data sb.datalen sb.rptr off (sb.cc - off) hrlt (by omega)
    rw [Nat.add_sub_cancel' (by omega)] at hdrop
    rw [Sbuf.contents, ← hdrop, ringList_take (by omega)]
  have hsrc : (if sb.datalen ≤ sb.rptr + off then sb.rptr + off - sb.datalen else sb.rptr + off) =
      ringAt sb.datalen sb.rptr off := by
    unfold ringAt
    split_ifs <;> omega
  have hat : ringAt sb.datalen sb.rptr off < sb.datalen := ringAt_lt hrlt (by omega)
  rw [hslice, sbcopy]
  simp only [hsrc]
  by_cases hlt : ringAt sb.datalen sb.rptr off < sb.wptr
  · have hle : ringAt sb.datalen sb.rptr off + len ≤ sb.datalen := by
      unfold ringAt at hw hlt ⊢
      split_ifs at hw hlt ⊢ <;> omega
    rw [if_pos hlt, Nat.min_eq_left (by omega), ringList_linear hle]
  · rw [if_neg hlt]
    generalize ringAt sb.datalen sb.rptr off = src at hat
    by_cases hfit : len ≤ sb.datalen - src
    · rw [Nat.min_eq_right hfit, ringList_linear (by omega), Nat.sub_self]
      simp [load]
    · have hwrap := @ringList_wrap _ sb.data sb.datalen src (sb.datalen - src) (len - (sb.datalen - src)) (by omega)
      rw [Nat.add_sub_cancel' (by omega)] at hwrap
      rw [Nat.min_eq_left (by omega), hwrap]

/-- A call on a buffer, with the answers of the host. There is no urgent data. -/
inductive Event where
  | append (m : List UInt8) (ret : ℤ)
  | write (nn ret : ℤ)
  | read (mss : ℕ) (first second : List UInt8)
  | drop (num : ℤ)

/-- What a call needs: room for what comes in, answers of at most what was asked, and a number that is an `int`. -/
def Event.Allowed (sb : Sbuf) : Event → Prop
  | append m ret => sb.cc + m.length ≤ sb.datalen ∧ ret ≤ m.length
  | write nn ret => nn ≤ sb.pieces.1.length ∧ ret ≤ sb.pieces.2.1.length
  | read mss first second => ∃ l0 l1 n, sopreprbuf sb mss = some (l0, l1, n) ∧ first.length ≤ l0 ∧ second.length ≤ l1
  | drop num => -2147483648 ≤ num ∧ num < 2147483648

def Event.run (sb : Sbuf) : Event → Option Sbuf
  | append m ret => (sbappend ⟨sb, 0⟩ m ret 0).map Socket.sb
  | write nn ret => (sowrite ⟨sb, 0⟩ nn ret 0).map Socket.sb
  | read mss first second => soread sb mss first second
  | drop num => sbdrop sb num

/-- The octets that come to the buffer. -/
def Event.given (sb : Sbuf) : Event → List UInt8
  | append m _ => m
  | read mss first second =>
    match sopreprbuf sb mss with
    | some (l0, _, n) => received l0 n first second
    | none => []
  | _ => []

/-- The octets that the host socket accepts. -/
def Event.sent (sb : Sbuf) : Event → List UInt8
  | append m ret => if sb.cc = 0 then m.take ret.toNat else []
  | write nn ret =>
    if nn ≤ 0 then [] else (sb.pieces.1 ++ sb.pieces.2.1).take (accepted sb.pieces.1 sb.pieces.2.2 nn ret).toNat
  | _ => []

/-- How many octets are dropped. -/
def Event.dropped (sb : Sbuf) : Event → ℕ
  | drop num => if uint num > sb.cc then sb.cc else uint num
  | _ => 0

/-- An octet leaves the buffer. -/
inductive Exit where
  | sent
  | dropped
  deriving DecidableEq

/-- The octets that leave the buffer, in order. -/
def Event.taken (sb : Sbuf) (e : Event) : List (Exit × UInt8) :=
  (e.sent sb).map (Exit.sent, ·) ++ (sb.contents.take (e.dropped sb)).map (Exit.dropped, ·)

/-- The buffers of `size` octets that calls lead to, with what has come to the buffer and what has left it. -/
inductive Reach (size : ℕ) : Sbuf → List UInt8 → List (Exit × UInt8) → Prop
  | init (mem : ℕ → UInt8) (h : size < 2147483648) : Reach size (sbreserve size mem) [] []
  | step {sb sb' : Sbuf} {ins : List UInt8} {outs : List (Exit × UInt8)} (h : Reach size sb ins outs) (e : Event)
      (allowed : e.Allowed sb) (run : e.run sb = some sb') : Reach size sb' (ins ++ e.given sb) (outs ++ e.taken sb)

/-- **A call is one on a queue**: what comes in is appended, what leaves is the front. -/
theorem Event.run_ok (h : sb.Ok) {e : Event} (he : e.Allowed sb) :
    ∃ sb' q, e.run sb = some sb' ∧ sb.Holds sb' q ∧ sb.contents ++ e.given sb = (e.taken sb).map Prod.snd ++ q := by
  have hnil (q : List UInt8) : (q.map (Exit.sent, ·) ++ ([] : List UInt8).map (Exit.dropped, ·)).map Prod.snd = q := by
    simp [Function.comp_def]
  cases e with
  | append m ret =>
    obtain ⟨hroom, hret⟩ := he
    simp only [Event.run, sbappend, Event.given, Event.taken, Event.sent, Event.dropped, take_zero, hnil,
      bind_eq_bind, ne_eq, not_true, if_false]
    by_cases hne : m = []
    · simp only [hne, if_true, map_some, take_nil, ite_self, append_nil, nil_append]
      exact ⟨_, _, rfl, h.holds, rfl⟩
    rw [if_neg hne]
    by_cases hcc : sb.cc = 0
    · have hempty : sb.contents = [] := eq_nil_of_length_eq_zero (by rw [length_contents, hcc])
      simp only [if_pos hcc, hempty, nil_append]
      by_cases hnone : ret ≤ 0
      · obtain ⟨sb', hrun, hholds⟩ := sbappendsb_ok h hne hroom
        rw [hempty, nil_append] at hholds
        simp only [if_pos hnone, hrun, bind_some, map_some, Int.toNat_of_nonpos hnone, take_zero,
          nil_append]
        exact ⟨_, _, rfl, hholds, rfl⟩
      rw [if_neg hnone]
      by_cases hall : ret = m.length
      · simp only [hall, not_true, if_false, map_some, Int.toNat_natCast, take_length]
        exact ⟨_, _, rfl, hempty ▸ h.holds, (append_nil m).symm⟩
      · -- the host socket takes a part
        have hrest : m.drop ret.toNat ≠ [] := by
          rw [Ne, drop_eq_nil_iff]
          omega
        obtain ⟨sb', hrun, hholds⟩ := sbappendsb_ok h hrest (by rw [length_drop]; omega)
        rw [hempty, nil_append] at hholds
        simp only [hall, not_false_eq_true, if_true, hrun, bind_some, map_some]
        exact ⟨_, _, rfl, hholds, (take_append_drop _ m).symm⟩
    · obtain ⟨sb', hrun, hholds⟩ := sbappendsb_ok h hne hroom
      simp only [if_neg hcc, if_pos (Int.le_refl 0), hrun, bind_some, map_some, nil_append]
      exact ⟨_, _, rfl, hholds, rfl⟩
  | write nn ret =>
    obtain ⟨hnn, hret⟩ := he
    simp only [Event.run, sowrite, sowriteRest, Event.given, Event.taken, Event.sent, Event.dropped,
      take_zero, hnil,
      bind_eq_bind, ne_eq, not_true, if_false, append_nil, (pieces_ok h).1]
    by_cases hnone : nn ≤ 0
    · simp only [if_pos hnone, map_some, nil_append]
      exact ⟨_, _, rfl, h.holds, rfl⟩
    · obtain ⟨n, hn, hle⟩ := accepted_ok h hnn hret (by omega)
      simp only [if_neg hnone, hn, advance_natCast, bind_some, map_some, Int.toNat_natCast]
      exact ⟨_, _, rfl, h.take hle, (take_append_drop n sb.contents).symm⟩
  | read mss first second =>
    obtain ⟨l0, l1, n, hprep, hfirst, hsecond⟩ := he
    obtain ⟨sb', hrun, hholds⟩ := soread_ok h hprep hfirst hsecond
    simp only [Event.run, Event.given, Event.taken, Event.sent, Event.dropped, take_zero, hnil, hprep]
    exact ⟨_, _, hrun, hholds, rfl⟩
  | drop num =>
    obtain ⟨sb', n, hrun, hn, hholds⟩ := sbdrop_ok h he
    refine ⟨_, _, hrun, hholds, ?_⟩
    simp only [Event.given, Event.taken, Event.sent, Event.dropped, ← hn]
    simp [Function.comp_def]

/-- The invariant of a run. -/
theorem Reach.ok {size : ℕ} {ins : List UInt8} {outs : List (Exit × UInt8)} (h : Reach size sb ins outs) :
    sb.Ok ∧ sb.datalen = size ∧ ins = outs.map Prod.snd ++ sb.contents := by
  induction h with
  | init mem h => exact ⟨⟨h, Nat.zero_le _, by simp [sbreserve]; omega, by simp [sbreserve, ringAt]⟩, rfl, rfl⟩
  | @step sb sb' ins outs h e allowed run ih =>
    obtain ⟨hok, hsize, hins⟩ := ih
    obtain ⟨_, q, hrun, hholds, hq⟩ := Event.run_ok hok allowed
    obtain rfl := Option.some.inj (run.symm.trans hrun)
    refine ⟨hholds.ok, hholds.datalen.trans hsize, ?_⟩
    rw [hins, append_assoc, hq, map_append, append_assoc, hholds.contents]

/-- **A socket buffer is a queue of octets**: in every run, what has come to the buffer is what has left it, followed by
the contents; the pointers stay in the buffer, a copy is a slice of the contents, and every call can be made. -/
theorem Reach.fifo {size : ℕ} {ins : List UInt8} {outs : List (Exit × UInt8)} (h : Reach size sb ins outs) :
    ins = outs.map Prod.snd ++ sb.contents ∧ sb.datalen = size ∧ sb.cc ≤ sb.datalen ∧
      (0 < size → sb.rptr < size ∧ sb.wptr < size) ∧ sb.wptr = (sb.rptr + sb.cc) % size ∧
      (∀ off len, off + len ≤ sb.cc → sbcopy sb off len = (sb.contents.drop off).take len) ∧
      ∀ e : Event, e.Allowed sb → (e.run sb).isSome := by
  obtain ⟨hok, rfl, hins⟩ := h.ok
  have hc := hok.cc_le
  refine ⟨hins, rfl, hc, fun hpos => ?_, ?_, fun off len => sbcopy_ok hok, fun e he => ?_⟩
  · have hr : sb.rptr < sb.datalen := hok.rptr.resolve_right (by omega)
    exact ⟨hr, hok.wptr ▸ ringAt_lt hr hc⟩
  · rcases hok.rptr with hr | ⟨hsize, hr⟩
    · rw [hok.wptr, ringAt_mod hr hc]
    · have hcc : sb.cc = 0 := by omega
      rw [hok.wptr, hsize, hr, hcc]
      rfl
  · obtain ⟨sb', q, hrun, -⟩ := Event.run_ok hok he
    rw [hrun]
    rfl

/-- A buffer of four octets: the host takes one of three. -/
theorem Reach.fifo_four : ∃ sb, Reach 4 sb [1, 2, 3] [(.sent, 1)] ∧ [1, 2, 3] = [1] ++ sb.contents := by
  have hreach := @Reach.step 4 (sbreserve 4 fun _ => 0) _ [] [] (.init _ (by decide)) (.append [1, 2, 3] 1)
    ⟨by decide, by decide⟩ rfl
  exact ⟨_, hreach, (Reach.fifo hreach).1⟩

end Emulator.Slirp.Sockbuf
