import Emulator.Exec.HostPc
import Emulator.Exec.JumpCache

/-!
# From a host address to a guest address

`tb_search_guest_pc_from_tb_pc` on the pairs of host and guest addresses that the translator left with a block. The
indices are 32 bits wide and go in steps of two; the first pair is looked at before the loop, and so no index goes
below zero.

* `searchPairs_eq`: the loop ends with the last pair that is not behind the address;
* `hostPc_lookups`: with `tbFindPc_reachable`, **what both searches of a host address return.**
-/

namespace Emulator.Exec

open CodeBuffer List Option

/-- The pairs of a block, by increasing host address; `gen_opc_tpc2gpc` has room for `OPC_BUF_SIZE` of them, far fewer
than the indices can count. -/
structure PairTable where
  pairs : List (TargetUlong × TargetUlong)
  increasing : pairs.Pairwise fun a b => a.1 < b.1
  fits : pairs.length ≤ 2 ^ 30

/-- `tb->tpc2gpc[i]` -/
def PairTable.word (t : PairTable) (i : ℕ) : Option TargetUlong :=
  t.pairs[i / 2]?.map fun pair => if i % 2 = 0 then pair.1 else pair.2

/-- `((m_min + m_max) >> 1) & ~1` -/
def midPair (mMin mMax : ℕ) : ℕ := ((mMin + mMax) % 2 ^ 32) >>> 1 >>> 1 <<< 1

/-- The loop; `none` if a pair is read that is not there, or the fuel is too small. -/
def searchPairs (t : PairTable) (tbPc : TargetUlong) : (fuel mMin mMax : ℕ) → Option TargetUlong
  | 0, _, _ => none
  | fuel + 1, mMin, mMax =>
    if mMin ≤ mMax then
      let m := midPair mMin mMax
      (t.word m).bind fun tpc =>
        if tbPc < tpc then searchPairs t tbPc fuel mMin ((m + 2 ^ 32 - 2) % 2 ^ 32)
        else
          (if m = mMax then some true else (t.word ((m + 2) % 2 ^ 32)).map fun next =>
            decide (tbPc < next)).bind fun hit =>
            if hit then t.word ((m + 1) % 2 ^ 32) else searchPairs t tbPc fuel ((m + 2) % 2 ^ 32) mMax
    else t.word ((mMax + 1) % 2 ^ 32)

/-- `tpc2gpc` is the table of the block, if it has one. -/
def tbSearchGuestPcFromTbPc (fuel : ℕ) (tpc2gpc : Option PairTable) (tbPc : TargetUlong) : Option TargetUlong :=
  match tpc2gpc with
  | none => some 0
  | some t =>
    if t.pairs.length ≠ 0 then
      (t.word 0).bind fun first =>
        if tbPc < first then some 0 else searchPairs t tbPc fuel 0 (((t.pairs.length - 1) <<< 1) % 2 ^ 32)
    else some 0

/-- The pair is not behind the host address. -/
def notBehind (tbPc : TargetUlong) (pair : TargetUlong × TargetUlong) : Bool := pair.1 ≤ tbPc

/-- The guest address of the last pair that is not behind the host address, 0 if there is none. -/
def lastGuestPc (pairs : List (TargetUlong × TargetUlong)) (tbPc : TargetUlong) : TargetUlong :=
  ((pairs.filter (notBehind tbPc)).getLast?.map Prod.snd).getD 0

variable {t : PairTable} {tbPc : TargetUlong}

theorem lt_trans_le {x y z : TargetUlong} (h₁ : x < y) (h₂ : y ≤ z) : x < z := by
  bv_omega

theorem PairTable.lt (t : PairTable) {i j : ℕ} (hj : j < t.pairs.length) (hij : i < j) : t.pairs[i].1 < t.pairs[j].1 :=
  pairwise_iff_getElem.1 t.increasing i j _ hj hij

theorem PairTable.le (t : PairTable) {i j : ℕ} (hj : j < t.pairs.length) (hij : i ≤ j) :
    t.pairs[i].1 ≤ t.pairs[j].1 := by
  rcases hij.lt_or_eq with hlt | rfl
  · exact BitVec.le_of_lt (t.lt hj hlt)
  · exact BitVec.le_refl _

theorem PairTable.word_fst {k : ℕ} (hk : k < t.pairs.length) : t.word (2 * k) = some t.pairs[k].1 := by
  rw [word, Nat.mul_div_cancel_left _ (by norm_num), List.getElem?_eq_getElem hk, map_some,
    if_pos (Nat.mul_mod_right 2 k)]

theorem PairTable.word_snd {k : ℕ} (hk : k < t.pairs.length) : t.word (2 * k + 1) = some t.pairs[k].2 := by
  rw [word, show (2 * k + 1) / 2 = k by omega, List.getElem?_eq_getElem hk, map_some, if_neg (by omega)]

theorem midPair_eq {a b : ℕ} (hab : a ≤ b) (hb : b < 2 ^ 30) : midPair (2 * a) (2 * b) = 2 * ((a + b) / 2) := by
  rw [midPair, Nat.shiftRight_eq_div_pow, Nat.shiftRight_eq_div_pow, Nat.shiftLeft_eq]
  omega

/-- The pair `r` is the last one that is not behind the address. -/
theorem lastGuestPc_eq {r : ℕ} (hr : r < t.pairs.length) (hle : t.pairs[r].1 ≤ tbPc)
    (hgt : ∀ k (hk : k < t.pairs.length), r < k → tbPc < t.pairs[k].1) : lastGuestPc t.pairs tbPc = t.pairs[r].2 := by
  have hdrop : (t.pairs.drop (r + 1)).filter (notBehind tbPc) = [] := by
    rw [filter_eq_nil_iff]
    intro pair hmem
    obtain ⟨i, hi, rfl⟩ := getElem_of_mem hmem
    rw [length_drop] at hi
    have hlt := hgt (r + 1 + i) (by omega) (by omega)
    rw [getElem_drop, notBehind, decide_eq_true_eq]
    exact BitVec.not_le.2 hlt
  have hsplit : t.pairs = t.pairs.take r ++ t.pairs[r] :: t.pairs.drop (r + 1) := by
    rw [← drop_eq_getElem_cons hr, take_append_drop]
  have hpair : notBehind tbPc t.pairs[r] = true := decide_eq_true hle
  have hfilter : t.pairs.filter (notBehind tbPc) =
      (t.pairs.take r).filter (notBehind tbPc) ++ [t.pairs[r]] := by
    conv_lhs => rw [hsplit]
    rw [filter_append, filter_cons_of_pos hpair, hdrop]
  rw [lastGuestPc, hfilter, List.getLast?_concat]
  rfl

/-- **The loop ends with the last pair** that is not behind the address: the pair at its lower bound never is, and
the pairs above its upper bound all are. -/
theorem searchPairs_eq {fuel a b : ℕ} (hab : a ≤ b) (hb : b < t.pairs.length) (hle : t.pairs[a].1 ≤ tbPc)
    (hgt : ∀ k (hk : k < t.pairs.length), b < k → tbPc < t.pairs[k].1) (hfuel : b - a < fuel) :
    searchPairs t tbPc fuel (2 * a) (2 * b) = some (lastGuestPc t.pairs tbPc) := by
  have hfits := t.fits
  induction fuel generalizing a b with
  | zero => exact absurd hfuel (Nat.not_lt_zero _)
  | succ fuel ih =>
    have hmid := midPair_eq hab (by omega)
    have hq : (a + b) / 2 < t.pairs.length := by omega
    rw [searchPairs, if_pos (Nat.mul_le_mul_left 2 hab)]
    simp only [hmid, PairTable.word_fst hq, bind_some]
    by_cases hlt : tbPc < t.pairs[(a + b) / 2].1
    · -- the middle is behind the address, and so it is not the lower bound
      have haq : a < (a + b) / 2 := by
        by_contra hqa
        exact BitVec.not_le.2 hlt (BitVec.le_trans (t.le (by omega) (not_lt.1 hqa)) hle)
      rw [if_pos hlt, show (2 * ((a + b) / 2) + 2 ^ 32 - 2) % 2 ^ 32 = 2 * ((a + b) / 2 - 1) by omega]
      refine ih (by omega) (by omega) hle (fun k hk hbk => ?_) (by omega)
      exact lt_trans_le hlt (t.le hk (by omega))
    · rw [if_neg hlt]
      have hle' : t.pairs[(a + b) / 2].1 ≤ tbPc := BitVec.not_lt.1 hlt
      have hsnd := PairTable.word_snd hq
      rw [show (2 * ((a + b) / 2) + 1) % 2 ^ 32 = 2 * ((a + b) / 2) + 1 by omega,
        show (2 * ((a + b) / 2) + 2) % 2 ^ 32 = 2 * ((a + b) / 2 + 1) by omega]
      by_cases hend : (a + b) / 2 = b
      · -- the upper bound is met
        rw [if_pos (congrArg (2 * ·) hend), bind_some, if_pos rfl, hsnd, lastGuestPc_eq hq hle']
        exact fun k hk hqk => hgt k hk (by omega)
      · have hnext : (a + b) / 2 + 1 < t.pairs.length := by omega
        rw [if_neg (by omega), PairTable.word_fst hnext, map_some, bind_some]
        by_cases hlt' : tbPc < t.pairs[(a + b) / 2 + 1].1
        · rw [if_pos (decide_eq_true hlt'), hsnd, lastGuestPc_eq hq hle']
          exact fun k hk hqk => lt_trans_le hlt' (t.le hk hqk)
        · rw [if_neg (by simpa using hlt')]
          exact ih (by omega) hb (BitVec.not_lt.1 hlt') hgt (by omega)

theorem lastGuestPc_none (h : ∀ pair ∈ t.pairs, tbPc < pair.1) : lastGuestPc t.pairs tbPc = 0 := by
  have hnil : t.pairs.filter (notBehind tbPc) = [] := by
    rw [filter_eq_nil_iff]
    intro pair hmem
    rw [notBehind, decide_eq_true_eq]
    exact BitVec.not_le.2 (h pair hmem)
  rw [lastGuestPc, hnil]
  rfl

/-- **The search of a table** ends, with as many rounds as there are pairs. -/
theorem tbSearchGuestPc_eq (hne : t.pairs ≠ []) {fuel : ℕ} (hfuel : t.pairs.length ≤ fuel) :
    tbSearchGuestPcFromTbPc fuel (some t) tbPc = some (lastGuestPc t.pairs tbPc) := by
  have hpos : 0 < t.pairs.length := length_pos_of_ne_nil hne
  have hfits := t.fits
  have hmax : ((t.pairs.length - 1) <<< 1) % 2 ^ 32 = 2 * (t.pairs.length - 1) := by
    rw [Nat.shiftLeft_eq]
    omega
  have hfirst : t.word 0 = some t.pairs[0].1 := PairTable.word_fst hpos
  unfold tbSearchGuestPcFromTbPc
  simp only [if_pos hpos.ne', hfirst, bind_some, hmax]
  by_cases hlt : tbPc < t.pairs[0].1
  · rw [if_pos hlt, lastGuestPc_none]
    intro pair hmem
    obtain ⟨i, hi, rfl⟩ := getElem_of_mem hmem
    exact lt_trans_le hlt (t.le hi (Nat.zero_le i))
  · rw [if_neg hlt, ← Nat.mul_zero 2]
    exact searchPairs_eq (Nat.zero_le _) (by omega) (BitVec.not_lt.1 hlt) (fun k hk hbk => by omega) (by omega)

/-- **Both lookups of a host address.** After any calls each address of the generated code has one block, which
`tb_find_pc` returns, and any other has none; and the search of a table of pairs ends with the last pair that is not
behind the address. -/
theorem hostPc_lookups :
    (∀ (c : CodeBuffer) (calls : List Call) (s : GenState), (∀ a ∈ calls, a.Ok) → c.run c.start calls = some s → ∀ p,
      (c.codeGenBuffer ≤ p → p < s.codeGenPtr →
        ∃ m, c.tbFindPc s p = some (some m) ∧ InBlock s p m ∧ ∀ m', InBlock s p m' → m' = m) ∧
      (¬ (c.codeGenBuffer ≤ p ∧ p < s.codeGenPtr) → c.tbFindPc s p = some none)) ∧
    ∀ (t : PairTable) (tbPc : TargetUlong), t.pairs ≠ [] → ∀ fuel, t.pairs.length ≤ fuel →
      tbSearchGuestPcFromTbPc fuel (some t) tbPc = some (lastGuestPc t.pairs tbPc) :=
  ⟨fun c calls _ hok hrun p => tbFindPc_reachable c calls hok hrun p, fun _ _ hne _ => tbSearchGuestPc_eq hne⟩

/-- Three blocks and a table of two pairs. -/
theorem hostPc_lookups_three : (∃ s, CodeBuffer.run ⟨0x1000, 0x10000, 0x8000, 8⟩ (start ⟨0x1000, 0x10000, 0x8000, 8⟩)
      [.gen 5, .gen 40, .free 1, .gen 20, .gen 1] = some s ∧
        ∃ m, tbFindPc ⟨0x1000, 0x10000, 0x8000, 8⟩ s 0x1018 = some (some m)) ∧
    ∃ t : PairTable, tbSearchGuestPcFromTbPc 2 (some t) 0x1017 = some 0x8004 := by
  constructor
  · refine ⟨_, rfl, ?_⟩
    obtain ⟨m, hm, -⟩ := (hostPc_lookups.1 ⟨0x1000, 0x10000, 0x8000, 8⟩ [.gen 5, .gen 40, .free 1, .gen 20, .gen 1] _
      (by simp [Call.Ok]) rfl 0x1018).1 (by decide) (by decide)
    exact ⟨m, hm⟩
  · let t : PairTable := ⟨[(0x1000, 0x8000), (0x1010, 0x8004)], by decide, by decide⟩
    exact ⟨t, hostPc_lookups.2 t 0x1017 (by decide) 2 (by decide)⟩

end Emulator.Exec
