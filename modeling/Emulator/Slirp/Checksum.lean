import Emulator.Lib.OnesComplement
import Mathlib.Data.List.TakeDrop
import Mathlib.Data.Int.Cast.Lemmas

/-!
# The Internet checksum (`cksum` of `cksum.c`)

The words are read in the byte order of the host, from an even address on: an odd first octet is kept for the end, and
the sum of the octets behind it, whose words are then made of the wrong pairs, is turned round by a shift of 8 bits.

The sum is an `int`; `none` is an overflow, or a read behind the data.

* `cksum_eq`: on every data of at most 65535 octets, `cksum` is the checksum of the standard.
-/

namespace Emulator.Slirp.Checksum

open Emulator.Lib List
open Option hiding min_le_right

/-- The byte order of the host. -/
inductive Order where
  | little
  | big

/-- Two octets in memory as a `u_int16_t`. -/
def word (order : Order) (c0 c1 : UInt8) : ℕ :=
  match order with
  | .little => c0.toNat + c1.toNat * 256
  | .big => c0.toNat * 256 + c1.toNat

/-- A buffer: the address of `m_data`, and the `m_len` octets there. -/
structure Mbuf where
  addr : ℕ
  data : List UInt8

/-- A value of an `int`. -/
def int (x : ℤ) : Option ℤ := if -2147483648 ≤ x ∧ x < 2147483648 then some x else none

/-- `sum += w[0]; sum += w[1];` and so on, so many times, with `w` at the octet `pos` of the data. -/
def addWords (order : Order) (data : List UInt8) : ℕ → ℤ → ℕ → Option ℤ
  | 0, sum, _ => some sum
  | n + 1, sum, pos => do
    let c0 ← data[pos]?
    let c1 ← data[pos + 1]?
    addWords order data n (← int (sum + word order c0 c1)) (pos + 2)

/-- `while ((mlen -= size) >= 0)`, with the words of `size` octets added in each round. -/
def sumLoop (order : Order) (data : List UInt8) (size : ℕ) : ℕ → ℤ → ℕ → ℤ → Option (ℤ × ℕ × ℤ)
  | 0, _, _, _ => none
  | fuel + 1, sum, pos, mlen =>
    if 0 ≤ mlen - size then do
      sumLoop order data size fuel (← addWords order data (size / 2) sum pos) (pos + size) (mlen - size)
    else some (sum, pos, mlen - size)

/-- `REDUCE`, with `ADDCARRY`. -/
def reduce (sum : ℤ) : ℤ :=
  let l := sum % 4294967296
  let sum := l % 65536 + l / 65536
  if sum > 65535 then sum - 65535 else sum

/-- From the label `cont` on. -/
def finish (order : Order) (sum mlen : ℤ) (c0 : UInt8) : Option ℤ := do
  let sum ← if mlen = -1 then int (sum + word order c0 0) else some sum
  -- `~sum & 0xffff`
  some ((-1 - reduce sum) % 65536)

/-- What `cksum` does behind the two unrolled loops, if it does not go to `cont` at once. -/
def lastWords (order : Order) (data : List UInt8) (byteSwapped : Bool) (sum : ℤ) (pos : ℕ) (mlen : ℤ) (c0 : UInt8) :
    Option ℤ := do
  let (sum, pos, mlen) ← sumLoop order data 2 (mlen.toNat + 1) (reduce sum) pos mlen
  if byteSwapped then
    let sum ← int (reduce sum * 256)
    if mlen = -1 then finish order (← int (sum + word order c0 (← data[pos]?))) 0 c0
    else finish order sum (-1) c0
  else if mlen = -1 then finish order sum mlen (← data[pos]?)
  else finish order sum mlen c0

/-- The octets from `pos` on are summed up, behind an odd octet `c0` if the words are swapped. -/
def sumFrom (order : Order) (data : List UInt8) (byteSwapped : Bool) (sum : ℤ) (pos : ℕ) (mlen : ℤ) (c0 : UInt8) :
    Option ℤ := do
  let (sum, pos, mlen) ← sumLoop order data 32 (mlen.toNat + 1) sum pos mlen
  let (sum, pos, mlen) ← sumLoop order data 8 ((mlen + 32).toNat + 1) sum pos (mlen + 32)
  let mlen := mlen + 8
  if mlen = 0 ∧ byteSwapped = false then finish order sum mlen c0
  else lastWords order data byteSwapped sum pos mlen c0

def cksum (order : Order) (m : Mbuf) (len : ℤ) : Option ℤ :=
  if m.data.length = 0 then finish order 0 0 0
  else
    let mlen : ℤ := if len < m.data.length then len else m.data.length
    if m.addr % 2 = 1 ∧ mlen > 0 then do
      let sum ← int (reduce 0 * 256)
      sumFrom order m.data true sum 1 (mlen - 1) (← m.data[0]?)
    else sumFrom order m.data false 0 0 mlen 0

/-- The 16-bit words of the octets in memory order, with a zero octet at the end if there is an odd one. -/
def words (order : Order) : List UInt8 → List ℕ
  | [] => []
  | [c] => [word order c 0]
  | c0 :: c1 :: cs => word order c0 c1 :: words order cs

/-- **The Internet checksum** (RFC 1071). -/
def rfc1071 (order : Order) (bytes : List UInt8) : ℕ := 65535 - (words order bytes).foldl (endAround 65535) 0

/-- The plain sum of the words. -/
def total (order : Order) (bytes : List UInt8) : ℕ := (words order bytes).sum

variable {order : Order}

theorem word_le (c0 c1 : UInt8) : word order c0 c1 ≤ 65535 := by
  have h0 := c0.toNat_lt
  have h1 := c1.toNat_lt
  cases order <;> simp only [word] <;> omega

theorem word_split (c0 c1 : UInt8) : word order c0 c1 = word order c0 0 + word order 0 c1 := by
  cases order <;> simp [word]

/-- **A shift by 8 bits** turns a word round. -/
theorem word_swap (c0 c1 : UInt8) : 256 * word order c0 c1 ≡ word order c1 c0 [MOD 65535] := by
  unfold Nat.ModEq
  cases order <;> simp only [word] <;> omega

theorem word_eq_zero {c0 c1 : UInt8} : word order c0 c1 = 0 ↔ c0 = 0 ∧ c1 = 0 := by
  rw [← UInt8.toNat_inj, ← UInt8.toNat_inj]
  cases order <;> simp only [word, UInt8.toNat_zero] <;> omega

@[simp] theorem total_nil : total order [] = 0 := rfl

@[simp] theorem total_single (c : UInt8) : total order [c] = word order c 0 := rfl

@[simp] theorem total_pair (c0 c1 : UInt8) (cs : List UInt8) :
    total order (c0 :: c1 :: cs) = word order c0 c1 + total order cs := sum_cons

theorem words_le (bytes : List UInt8) : ∀ w ∈ words order bytes, w ≤ 65535 := by
  fun_induction words order bytes with
  | case1 => simp
  | case2 c => simpa using word_le c 0
  | case3 c0 c1 cs ih => exact forall_mem_cons.2 ⟨word_le c0 c1, ih⟩

theorem rfc1071_eq (bytes : List UInt8) : rfc1071 order bytes = 65535 - wrap 65535 (total order bytes) := by
  rw [rfc1071, foldl_endAround (words_le bytes) (by omega), Nat.zero_add]
  rfl

theorem total_append {l : List UInt8} (h : l.length % 2 = 0) (r : List UInt8) :
    total order (l ++ r) = total order l + total order r := by
  induction l using words.induct with
  | case1 => simp
  | case2 c => simp at h
  | case3 c0 c1 cs ih =>
    have hcs : cs.length % 2 = 0 := by
      simp only [length_cons] at h
      omega
    simp only [cons_append, total_pair, ih hcs, Nat.add_assoc]

theorem total_le (bytes : List UInt8) : total order bytes ≤ 65535 * ((bytes.length + 1) / 2) := by
  induction bytes using words.induct with
  | case1 => simp
  | case2 c => simpa using word_le c 0
  | case3 c0 c1 cs ih =>
    have hword := @word_le order c0 c1
    simp only [total_pair, length_cons]
    omega

theorem total_eq_zero {bytes : List UInt8} : total order bytes = 0 ↔ ∀ c ∈ bytes, c = 0 := by
  induction bytes using words.induct with
  | case1 => simp
  | case2 c => simp [word_eq_zero]
  | case3 c0 c1 cs ih => simp [word_eq_zero, ih, and_assoc]

/-- **One octet in front** swaps the pairs behind it. -/
theorem total_cons (c : UInt8) (bytes : List UInt8) :
    256 * total order bytes + word order c 0 ≡ total order (c :: bytes) [MOD 65535] := by
  induction bytes using words.induct generalizing c with
  | case1 => simp [Nat.ModEq]
  | case2 x =>
    rw [total_single, total_pair, total_nil, Nat.add_zero, word_split c x, Nat.add_comm]
    exact (word_swap x 0).add_left _
  | case3 c0 c1 cs ih =>
    have hpair : 256 * total order (c0 :: c1 :: cs) + word order c 0 =
        (256 * total order cs + 256 * word order c0 c1) + word order c 0 := by
      rw [total_pair]
      omega
    have hcons : total order (c :: c0 :: c1 :: cs) =
        (total order (c1 :: cs) + word order 0 c0) + word order c 0 := by
      rw [total_pair, word_split c c0]
      omega
    rw [hpair, hcons]
    refine Nat.ModEq.add_right _ ?_
    calc 256 * total order cs + 256 * word order c0 c1
        ≡ 256 * total order cs + word order c1 c0 [MOD 65535] := (word_swap c0 c1).add_left _
      _ = 256 * total order cs + word order c1 0 + word order 0 c0 := by rw [word_split c1 c0, Nat.add_assoc]
      _ ≡ total order (c1 :: cs) + word order 0 c0 [MOD 65535] := (ih c1).add_right _

theorem int_some {x : ℤ} (h0 : 0 ≤ x) (h : x < 2147483648) : int x = some x := if_pos ⟨by omega, h⟩

theorem reduce_eq {n : ℕ} (h : n < 2147483648) : reduce n = wrap 65535 n := by
  have hsplit : n % 65536 + n / 65536 ≡ n [MOD 65535] := by
    unfold Nat.ModEq
    omega
  have hwrap : wrap 65535 n = wrap 65535 (n % 65536 + n / 65536) := wrap_congr hsplit.symm (by omega)
  rw [hwrap]
  unfold reduce
  by_cases hc : 65535 < n % 65536 + n / 65536
  · have hone : wrap 65535 (n % 65536 + n / 65536) = n % 65536 + n / 65536 - 65535 := by
      rw [← wrap_of_le (show n % 65536 + n / 65536 - 65535 ≤ 65535 by omega)]
      exact wrap_congr ((Nat.modEq_iff_dvd' (Nat.sub_le _ _)).2 ⟨1, by omega⟩).symm (by omega)
    rw [hone]
    simp only
    rw [if_pos (by omega)]
    omega
  · rw [wrap_of_le (by omega)]
    simp only
    rw [if_neg (by omega)]
    omega

/-- The end: the sum is folded to 16 bits and complemented. -/
theorem finish_eq {n : ℕ} (c0 : UInt8) (h : n < 2147483648) :
    finish order n 0 c0 = some ((65535 - wrap 65535 n : ℕ) : ℤ) := by
  have hle := @wrap_le 65535 (by omega) n
  rw [finish, if_neg (by omega)]
  simp only [bind_eq_bind, bind_some, reduce_eq h, Option.some.injEq]
  omega

theorem finish_odd {n : ℕ} (c0 : UInt8) (h : n + 65535 < 2147483648) :
    finish order n (-1) c0 = some ((65535 - wrap 65535 (n + word order c0 0) : ℕ) : ℤ) := by
  have hword := @word_le order c0 0
  have hint : int ((n : ℤ) + word order c0 0) = some ((n + word order c0 0 : ℕ) : ℤ) := by
    rw [int_some (by omega) (by omega), Nat.cast_add]
  rw [← @finish_eq order _ c0 (show n + word order c0 0 < 2147483648 by omega)]
  unfold finish
  rw [if_pos rfl, if_neg (by omega), hint]

theorem addWords_eq {data : List UInt8} (k : ℕ) {sum : ℤ} {pos : ℕ} (hpos : pos + 2 * k ≤ data.length)
    (h0 : 0 ≤ sum) (hsum : sum + 65535 * k < 2147483648) :
    addWords order data k sum pos = some (sum + total order ((data.drop pos).take (2 * k))) := by
  induction k generalizing sum pos with
  | zero => simp [addWords]
  | succ k ih =>
    have hlt0 : pos < data.length := by omega
    have hlt1 : pos + 1 < data.length := by omega
    have hdrop : (data.drop pos).take (2 * (k + 1)) =
        data[pos] :: data[pos + 1] :: (data.drop (pos + 2)).take (2 * k) := by
      rw [drop_eq_getElem_cons hlt0, drop_eq_getElem_cons hlt1, show 2 * (k + 1) = 2 * k + 1 + 1 by omega,
        take_succ_cons, take_succ_cons]
    have hword := @word_le order data[pos] data[pos + 1]
    have hint : int (sum + word order data[pos] data[pos + 1]) = some (sum + word order data[pos] data[pos + 1]) :=
      int_some (by omega) (by omega)
    rw [addWords, List.getElem?_eq_getElem hlt0, List.getElem?_eq_getElem hlt1]
    simp only [bind_eq_bind, bind_some, hint]
    rw [ih (by omega) (by omega) (by omega), hdrop, total_pair, Nat.cast_add, add_assoc]

/-- **An unrolled loop** adds the words of as many blocks as fit. -/
theorem sumLoop_eq {data : List UInt8} {half : ℕ} (hhalf : 0 < half) {fuel pos mlen : ℕ} {sum : ℤ} (hfuel : mlen < fuel)
    (hpos : pos + mlen ≤ data.length) (h0 : 0 ≤ sum) (hsum : sum + 65535 * (mlen / 2) < 2147483648) :
    sumLoop order data (2 * half) fuel sum pos mlen =
      some (sum + total order ((data.drop pos).take (mlen / (2 * half) * (2 * half))),
        pos + mlen / (2 * half) * (2 * half), ((mlen % (2 * half) : ℕ) : ℤ) - (2 * half : ℕ)) := by
  induction fuel generalizing sum pos mlen with
  | zero => omega
  | succ fuel ih =>
    rw [sumLoop]
    by_cases hle : 2 * half ≤ mlen
    · obtain ⟨rest, rfl⟩ : ∃ rest, mlen = rest + 2 * half := ⟨mlen - 2 * half, by omega⟩
      have htotal := @total_le order ((data.drop pos).take (2 * half))
      have htake : ((data.drop pos).take (2 * half)).length = 2 * half := by
        rw [length_take, length_drop]
        omega
      rw [htake] at htotal
      have hadd := @addWords_eq order data half sum pos (by omega) h0 (by omega)
      have hmlen : ((rest + 2 * half : ℕ) : ℤ) - (2 * half : ℕ) = (rest : ℕ) := by omega
      have hk : (rest + 2 * half) / (2 * half) * (2 * half) = 2 * half + rest / (2 * half) * (2 * half) := by
        rw [Nat.add_div_right _ (by omega), Nat.succ_mul, Nat.add_comm]
      rw [hmlen, if_pos (by omega), show 2 * half / 2 = half by omega, hadd]
      simp only [bind_eq_bind, bind_some]
      rw [ih (by omega) (by omega) (by omega) (by omega), Nat.add_mod_right, hk, take_add,
        total_append (by omega), drop_drop, Nat.cast_add, add_assoc, Nat.add_assoc]
    · rw [if_neg (by omega), Nat.div_eq_of_lt (by omega), Nat.mod_eq_of_lt (by omega)]
      simp

/-- The last words: an odd octet at the end is behind them. -/
theorem take_odd {data : List UInt8} {pos m : ℕ} (hpos : pos + m ≤ data.length) (hodd : m % 2 = 1) :
    ∃ x, data[pos + m / 2 * 2]? = some x ∧
      total order ((data.drop pos).take m) = total order ((data.drop pos).take (m / 2 * 2)) + word order x 0 := by
  have hlt : pos + m / 2 * 2 < data.length := by omega
  refine ⟨_, List.getElem?_eq_getElem hlt, ?_⟩
  have hlast : ((data.drop pos).drop (m / 2 * 2)).take 1 = [data[pos + m / 2 * 2]] := by
    rw [drop_drop, drop_eq_getElem_cons hlt]
    rfl
  have hsplit : (data.drop pos).take m = (data.drop pos).take (m / 2 * 2) ++ [data[pos + m / 2 * 2]] := by
    rw [← hlast, ← take_add, show m / 2 * 2 + 1 = m by omega]
  rw [hsplit, total_append, total_single]
  rw [length_take, length_drop]
  omega

variable {data : List UInt8}

theorem lastWords_eq {pos m n : ℕ} (c0 : UInt8) (hpos : pos + m ≤ data.length) (hm : m < 8)
    (hn : n < 2147483648) : lastWords order data false n pos m c0 =
      some ((65535 - wrap 65535 (n + total order ((data.drop pos).take m)) : ℕ) : ℤ) := by
  have hwrap := @wrap_le 65535 (by omega) n
  have htotal := @total_le order ((data.drop pos).take (m / 2 * 2))
  have hlen : ((data.drop pos).take (m / 2 * 2)).length ≤ 6 := by
    rw [length_take]
    omega
  have hloop := @sumLoop_eq order data 1 (by omega) (m + 1) pos m (wrap 65535 n : ℕ) (by omega) hpos (by omega)
    (by omega)
  have hcongr (t : ℕ) : wrap 65535 (wrap 65535 n + t) = wrap 65535 (n + t) :=
    wrap_congr ((wrap_modEq 65535 n).add_right t) (by rw [Nat.add_eq_zero_iff, Nat.add_eq_zero_iff, wrap_eq_zero])
  rw [Nat.mul_one] at hloop
  rw [lastWords, reduce_eq hn, Int.toNat_natCast, hloop]
  simp only [bind_eq_bind, bind_some, Bool.false_eq_true, if_false, ← Nat.cast_add]
  by_cases hodd : m % 2 = 1
  · obtain ⟨x, hx, htake⟩ := @take_odd order data pos m hpos hodd
    rw [hodd, if_pos (by rfl), hx, bind_some, show ((1 : ℕ) : ℤ) - (2 : ℕ) = -1 from rfl,
      finish_odd x (by omega),
      Nat.add_assoc, ← htake, hcongr]
  · have hmlen : finish order ((wrap 65535 n + total order ((data.drop pos).take (m / 2 * 2)) : ℕ) : ℤ)
        ((m % 2 : ℕ) - (2 : ℕ) : ℤ) c0 =
        finish order ((wrap 65535 n + total order ((data.drop pos).take (m / 2 * 2)) : ℕ) : ℤ) 0 c0 := by
      unfold finish
      rw [if_neg (by omega), if_neg (by omega)]
    rw [if_neg (by omega), hmlen, finish_eq c0 (by omega), hcongr, show m / 2 * 2 = m by omega]

theorem lastWords_swapped {pos m n : ℕ} (c0 : UInt8) (hpos : pos + m ≤ data.length) (hm : m < 8)
    (hn : n < 2147483648) : lastWords order data true n pos m c0 =
      some ((65535 - wrap 65535 (256 * (n + total order ((data.drop pos).take m)) + word order c0 0) : ℕ) : ℤ) := by
  have hwrap := @wrap_le 65535 (by omega) n
  have hmod := wrap_modEq 65535 n
  have hzero := @wrap_eq_zero 65535 n
  have htotal := @total_le order ((data.drop pos).take (m / 2 * 2))
  have hlen : ((data.drop pos).take (m / 2 * 2)).length ≤ 6 := by
    rw [length_take]
    omega
  have hloop := @sumLoop_eq order data 1 (by omega) (m + 1) pos m (wrap 65535 n : ℕ) (by omega) hpos (by omega)
    (by omega)
  rw [Nat.mul_one] at hloop
  rw [lastWords, reduce_eq hn, Int.toNat_natCast, hloop]
  generalize htot : total order ((data.drop pos).take (m / 2 * 2)) = t at htotal hloop ⊢
  have hred : reduce ((wrap 65535 n + t : ℕ) : ℤ) = (wrap 65535 (wrap 65535 n + t) : ℕ) := reduce_eq (by omega)
  have hle := @wrap_le 65535 (by omega) (wrap 65535 n + t)
  have hshift : int ((wrap 65535 (wrap 65535 n + t) : ℕ) * 256) =
      some ((256 * wrap 65535 (wrap 65535 n + t) : ℕ) : ℤ) := by
    rw [int_some (by omega) (by omega), Nat.cast_mul, mul_comm]
    rfl
  -- the shifted sum, and whether it is zero
  have hcongr : 256 * wrap 65535 (wrap 65535 n + t) ≡ 256 * (n + t) [MOD 65535] :=
    ((wrap_modEq 65535 _).trans (hmod.add_right t)).mul_left 256
  have hnull : wrap 65535 (wrap 65535 n + t) = 0 ↔ n + t = 0 := by
    rw [wrap_eq_zero, Nat.add_eq_zero_iff, Nat.add_eq_zero_iff, hzero]
  simp only [bind_eq_bind, bind_some, if_true, ← Nat.cast_add, hred, hshift]
  generalize wrap 65535 (wrap 65535 n + t) = r at hle hcongr hnull
  by_cases hodd : m % 2 = 1
  · obtain ⟨x, hx, htake⟩ := @take_odd order data pos m hpos hodd
    have hword := @word_le order c0 x
    have hint : int ((256 * r + word order c0 x : ℕ) : ℤ) = some ((256 * r + word order c0 x : ℕ) : ℤ) :=
      int_some (by omega) (by omega)
    have hsame : wrap 65535 (256 * r + word order c0 x) =
        wrap 65535 (256 * (n + (t + word order x 0)) + word order c0 0) := by
      refine wrap_congr ?_ ?_
      · calc 256 * r + word order c0 x
            ≡ 256 * (n + t) + word order c0 x [MOD 65535] := hcongr.add_right _
          _ = 256 * (n + t) + word order c0 0 + word order 0 x := by rw [word_split c0 x, Nat.add_assoc]
          _ ≡ 256 * (n + t) + word order c0 0 + 256 * word order x 0 [MOD 65535] := (word_swap x 0).symm.add_left _
          _ = 256 * (n + (t + word order x 0)) + word order c0 0 := by omega
      · have hx0 := @word_eq_zero order c0 x
        have hc0 := @word_eq_zero order c0 0
        have hxz := @word_eq_zero order x 0
        grind
    rw [hodd, if_pos (by rfl), hx, bind_some, hint, bind_some, finish_eq c0 (by omega), htake,
      htot, hsame]
  · have hsame : wrap 65535 (256 * r + word order c0 0) = wrap 65535 (256 * (n + t) + word order c0 0) :=
      wrap_congr (hcongr.add_right _) (by omega)
    rw [show m / 2 * 2 = m by omega] at htot
    rw [if_neg (by omega), finish_odd c0 (by omega), htot, hsame]

/-- The two unrolled loops come to the last block of less than 8 octets. -/
theorem sumFrom_eq {pos mlen : ℕ} (swapped : Bool) (c0 : UInt8) (hpos : pos + mlen ≤ data.length)
    (hmlen : mlen ≤ 65535) : sumFrom order data swapped 0 pos mlen c0 =
      if mlen % 8 = 0 ∧ swapped = false then finish order (total order ((data.drop pos).take mlen)) 0 c0
      else lastWords order data swapped (total order ((data.drop pos).take (mlen / 8 * 8))) (pos + mlen / 8 * 8)
        (mlen % 8 : ℕ) c0 := by
  have hloop := @sumLoop_eq order data 16 (by omega) (mlen + 1) pos mlen 0 (by omega) hpos (by omega) (by omega)
  have htotal := @total_le order ((data.drop pos).take (mlen / 32 * 32))
  have hlen : ((data.drop pos).take (mlen / 32 * 32)).length = mlen / 32 * 32 := by
    rw [length_take, length_drop]
    omega
  rw [hlen] at htotal
  have hloop' := @sumLoop_eq order data 4 (by omega) (mlen % 32 + 1) (pos + mlen / 32 * 32) (mlen % 32)
    (total order ((data.drop pos).take (mlen / 32 * 32))) (by omega) (by omega) (by omega) (by omega)
  have hjoin : total order ((data.drop pos).take (mlen / 32 * 32)) +
      total order ((data.drop (pos + mlen / 32 * 32)).take (mlen % 32 / 8 * 8)) =
      total order ((data.drop pos).take (mlen / 8 * 8)) := by
    rw [← total_append (by omega), ← drop_drop, ← take_add,
      show mlen / 32 * 32 + mlen % 32 / 8 * 8 = mlen / 8 * 8 by omega]
  rw [sumFrom, Int.toNat_natCast, hloop]
  simp only [bind_eq_bind, bind_some]
  rw [show ((mlen % (2 * 16) : ℕ) : ℤ) - (2 * 16 : ℕ) + 32 = (mlen % 32 : ℕ) by omega, zero_add, Int.toNat_natCast,
    hloop', bind_some, ← Nat.cast_add, hjoin,
    show ((mlen % 32 % (2 * 4) : ℕ) : ℤ) - (2 * 4 : ℕ) + 8 = (mlen % 8 : ℕ) by omega,
    show pos + mlen / 32 * 32 + mlen % 32 / 8 * 8 = pos + mlen / 8 * 8 by omega]
  by_cases hend : mlen % 8 = 0 ∧ swapped = false
  · rw [if_pos hend, if_pos ⟨by omega, hend.2⟩, hend.1, show mlen / 8 * 8 = mlen by omega, Nat.cast_zero]
  · rw [if_neg hend, if_neg fun h => hend ⟨by omega, h.2⟩]

/-- The blocks of 8 octets and what is left of the data. -/
theorem total_blocks {pos n : ℕ} (hpos : pos + n ≤ data.length) :
    total order ((data.drop pos).take (n / 8 * 8)) + total order ((data.drop (pos + n / 8 * 8)).take (n % 8)) =
      total order ((data.drop pos).take n) := by
  have hlen : ((data.drop pos).take (n / 8 * 8)).length = n / 8 * 8 := by
    rw [length_take, length_drop]
    omega
  rw [← total_append (by omega), ← drop_drop, ← take_add, show n / 8 * 8 + n % 8 = n by omega]

theorem wrap_total_cons (c : UInt8) (bytes : List UInt8) :
    wrap 65535 (256 * total order bytes + word order c 0) = wrap 65535 (total order (c :: bytes)) := by
  refine wrap_congr (total_cons c bytes) ?_
  rw [Nat.add_eq_zero_iff, Nat.mul_eq_zero, or_iff_right (by decide), total_eq_zero, total_eq_zero, word_eq_zero,
    forall_mem_cons]
  grind

/-- **`cksum` is the Internet checksum** of the first `len` octets, or of all if there are fewer, whatever the address
is; no read is behind the data, and the sum does not overflow. -/
theorem cksum_eq (order : Order) (m : Mbuf) (len : ℕ) (h : (m.data.take len).length ≤ 65535) :
    cksum order m len = some (rfc1071 order (m.data.take len) : ℤ) := by
  have htake : m.data.take len = m.data.take (min len m.data.length) := by
    rw [← take_take, take_length]
  rw [rfc1071_eq, htake]
  rw [htake, length_take] at h
  have hmlen : (if (len : ℤ) < m.data.length then (len : ℤ) else m.data.length) = (min len m.data.length : ℕ) := by
    split_ifs <;> omega
  rw [cksum, hmlen]
  have hk : min len m.data.length ≤ m.data.length := min_le_right _ _
  generalize min len m.data.length = k at h hk ⊢
  have hbound (pos j : ℕ) (hj : j ≤ 65535) : total order ((m.data.drop pos).take j) < 2147483648 := by
    have hle := @total_le order ((m.data.drop pos).take j)
    have hlen := length_take_le j (m.data.drop pos)
    omega
  by_cases h0 : m.data.length = 0
  · rw [if_pos h0, length_eq_zero_iff.1 h0, take_nil]
    exact_mod_cast @finish_eq order 0 0 (by omega)
  · rw [if_neg h0]
    by_cases hodd : m.addr % 2 = 1 ∧ (k : ℤ) > 0
    · -- the words are those behind the first octet
      obtain ⟨n, rfl⟩ : ∃ n, k = n + 1 := ⟨k - 1, by omega⟩
      obtain ⟨c, cs, hdata⟩ := exists_cons_of_length_pos (Nat.pos_of_ne_zero h0)
      have hfirst : m.data[0]? = some c := by rw [hdata, List.getElem?_cons_zero]
      have htail : (m.data.drop 1).take n = cs.take n := by rw [hdata, drop_one, tail_cons]
      have hshift : int (reduce 0 * 256) = some 0 := rfl
      rw [if_pos hodd, hshift, hfirst]
      simp only [bind_eq_bind, bind_some]
      rw [show ((n + 1 : ℕ) : ℤ) - 1 = n by omega, sumFrom_eq true c (by omega) (by omega), if_neg (by simp),
        lastWords_swapped c (by omega) (by omega) (hbound 1 _ (by omega)), total_blocks (by omega), wrap_total_cons,
        htail, hdata, take_succ_cons]
    · rw [if_neg hodd, sumFrom_eq false 0 (by omega) (by omega)]
      by_cases hend : k % 8 = 0 ∧ false = false
      · rw [if_pos hend, finish_eq 0 (hbound 0 k (by omega)), drop_zero]
      · rw [if_neg hend, lastWords_eq 0 (by omega) (by omega) (hbound 0 _ (by omega)), total_blocks (by omega),
          drop_zero]

/-- Five octets at an odd address. -/
theorem cksum_eq_five : ([1, 2, 3, 4, 255] : List UInt8).length ≤ 65535 ∧
    cksum .big ⟨1001, [1, 2, 3, 4, 255]⟩ 5 = some 0xfcf8 :=
  ⟨by decide, cksum_eq .big ⟨1001, [1, 2, 3, 4, 255]⟩ 5 (by decide)⟩

end Emulator.Slirp.Checksum
