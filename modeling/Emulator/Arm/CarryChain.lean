import Mathlib.Tactic
import Mathlib.Data.Nat.Digits.Defs
import Emulator.Arm.FlagHelpers

/-!
# Chains of additions and subtractions with carry

`add_cc` on the lowest words and `adc_cc` on each pair above them, and `sub_cc` with `sbc_cc`: the
arithmetic of words of any length.

* `AddsWithCarry`: one helper, by the sum and the signed sum that it is for. A subtraction is the
  addition of the complement.
* `AddsWithCarry.chain`: the same for any number of words, from the lowest to the highest.
* `carryChains_exact`: the words and the flags at the end are those of one long addition and one
  long subtraction.
-/

namespace Emulator.Arm

open List BitVec

/-- The number that words are for, the lowest word first. -/
def wordsValue (words : List Word) : ℕ := Nat.ofDigits (2 ^ 32) (words.map BitVec.toNat)

/-- The same in two's complement. -/
def signedValue (words : List Word) : ℤ := (BitVec.ofNat (32 * words.length) (wordsValue words)).toInt

@[simp] theorem wordsValue_nil : wordsValue [] = 0 := rfl

@[simp] theorem wordsValue_cons (w : Word) (words : List Word) :
    wordsValue (w :: words) = w.toNat + 2 ^ 32 * wordsValue words := by
  simp [wordsValue, Nat.ofDigits_cons]

theorem pow_words_succ (n : ℕ) : 2 ^ (32 * (n + 1)) = 2 ^ 32 * 2 ^ (32 * n) := by
  rw [Nat.mul_succ, pow_add, mul_comm]

theorem wordsValue_lt (words : List Word) : wordsValue words < 2 ^ (32 * words.length) := by
  induction words with
  | nil => simp
  | cons w words ih =>
    have hw := w.isLt
    rw [wordsValue_cons, length_cons, pow_words_succ]
    omega

theorem signedValue_eq (words : List Word) :
    signedValue words =
      if 2 * wordsValue words < 2 ^ (32 * words.length) then (wordsValue words : ℤ)
      else (wordsValue words : ℤ) - (2 ^ (32 * words.length) : ℕ) := by
  rw [signedValue, toInt_eq_toNat_cond, toNat_ofNat, Nat.mod_eq_of_lt (wordsValue_lt words)]

theorem signedValue_singleton (w : Word) : signedValue [w] = w.toInt := by
  rw [signedValue_eq, toInt_eq_toNat_cond]
  simp

variable {words : List Word}

/-- The sign is in the highest word. -/
theorem signedValue_cons (w : Word) (hne : words ≠ []) :
    signedValue (w :: words) = w.toNat + 2 ^ 32 * signedValue words := by
  obtain ⟨k, hk⟩ : ∃ k, 2 ^ (32 * words.length) = 2 * k := by
    obtain ⟨v, words, rfl⟩ := exists_cons_of_ne_nil hne
    exact ⟨2 ^ 31 * 2 ^ (32 * words.length), by rw [length_cons, pow_words_succ]; ring⟩
  have hw := w.isLt
  rw [signedValue_eq, signedValue_eq, wordsValue_cons, length_cons, pow_words_succ, hk]
  split_ifs <;> push_cast <;> omega

theorem signedValue_bounds (hne : words ≠ []) :
    -(2 : ℤ) ^ (32 * words.length - 1) ≤ signedValue words ∧ signedValue words < 2 ^ (32 * words.length - 1) := by
  have hpos : 0 < 32 * words.length := by
    have := length_pos_of_ne_nil hne
    omega
  exact ⟨le_toInt _, toInt_lt⟩

theorem signedValue_emod (words : List Word) :
    signedValue words % 2 ^ (32 * words.length) = (wordsValue words : ℤ) := by
  have hlt : (wordsValue words : ℤ) < 2 ^ (32 * words.length) := by exact_mod_cast wordsValue_lt words
  rw [signedValue_eq]
  split_ifs
  · exact Int.emod_eq_of_lt (by positivity) hlt
  · push_cast
    rw [Int.sub_emod_right]
    exact Int.emod_eq_of_lt (by positivity) hlt

theorem wordsValue_not (words : List Word) :
    wordsValue (words.map (~~~ ·)) + wordsValue words + 1 = 2 ^ (32 * words.length) := by
  induction words with
  | nil => rfl
  | cons w words ih =>
    have hw := w.isLt
    rw [map_cons, wordsValue_cons, wordsValue_cons, length_cons, pow_words_succ, toNat_not, ← ih]
    omega

theorem toInt_not (w : Word) : (~~~ w).toInt = -1 - w.toInt := by
  have hw := w.isLt
  rw [CPUARMState.toInt_eq, CPUARMState.toInt_eq, toNat_not]
  split_ifs <;> omega

theorem signedValue_not (hne : words ≠ []) :
    signedValue (words.map (~~~ ·)) = -1 - signedValue words := by
  induction words with
  | nil => exact absurd rfl hne
  | cons w words ih =>
    cases words with
    | nil => rw [map_cons, map_nil, signedValue_singleton, signedValue_singleton, toInt_not]
    | cons v words =>
      have hw := w.isLt
      rw [map_cons, signedValue_cons w (cons_ne_nil v words), signedValue_cons (~~~ w) (by simp),
        ih (cons_ne_nil v words), toNat_not]
      omega

/-- A helper that adds the words and the carry, with its four flags. -/
structure AddsWithCarry (env : CPUARMState) (result a b : Word) (carry : ℕ) : Prop where
  cf : env.cf = 0 ∨ env.cf = 1
  sum : result.toNat + 2 ^ 32 * env.cf.toNat = a.toNat + b.toNat + carry
  overflow : env.vf.getLsbD 31 = true ↔ result.toInt ≠ a.toInt + b.toInt + carry
  nf : env.nf = result
  zf : env.zf = result

namespace CPUARMState

variable {env : CPUARMState}

theorem added_adds (env : CPUARMState) (a b : Word) (carry : Bool) :
    AddsWithCarry (env.added a b carry).1 (env.added a b carry).2 a b carry.toNat where
  cf := bit_ite _
  sum := by
    have ha := a.isLt
    have hb := b.isLt
    have hcarry : carry.toNat ≤ 1 := by cases carry <;> decide
    simp only [added, toNat_ofNat]
    split_ifs with hwrap
    · change _ + 2 ^ 32 * 1 = _
      omega
    · change _ + 2 ^ 32 * 0 = _
      omega
  overflow := by
    have hflag := overflow_add a b carry _ (toNat_ofNat _ _)
    simp only [added, hflag, decide_eq_true_eq]
  nf := rfl
  zf := rfl

theorem addCc_adds (env : CPUARMState) (a b : Word) :
    AddsWithCarry (env.addCc a b).1 (env.addCc a b).2 a b 0 := by
  rw [addCc_eq]
  exact added_adds env a b false

theorem subCc_adds (env : CPUARMState) (a b : Word) :
    AddsWithCarry (env.subCc a b).1 (env.subCc a b).2 a (~~~ b) 1 := by
  rw [subCc_eq]
  exact added_adds env a (~~~ b) true

/-- `CF` as the carry in. -/
theorem cf_toNat (hcf : env.cf = 0 ∨ env.cf = 1) : env.cf.toNat = (decide (env.cf ≠ 0)).toNat := by
  rcases hcf with h | h <;> rw [h] <;> rfl

theorem adcCc_adds (hcf : env.cf = 0 ∨ env.cf = 1) (a b : Word) :
    AddsWithCarry (env.adcCc a b).1 (env.adcCc a b).2 a b env.cf.toNat := by
  rw [adcCc_eq, cf_toNat hcf]
  exact added_adds env a b _

theorem sbcCc_adds (hcf : env.cf = 0 ∨ env.cf = 1) (a b : Word) :
    AddsWithCarry (env.sbcCc a b).1 (env.sbcCc a b).2 a (~~~ b) env.cf.toNat := by
  rw [sbcCc_eq, cf_toNat hcf]
  exact added_adds env a (~~~ b) _

/-- A helper on each pair of words, from the lowest one. -/
def limbs (helper : CPUARMState → Word → Word → CPUARMState × Word) (env : CPUARMState) :
    List (Word × Word) → CPUARMState × List Word
  | [] => (env, [])
  | (a, b) :: pairs =>
    let (env, result) := helper env a b
    let (env, results) := limbs helper env pairs
    (env, result :: results)

/-- `add_cc`, and `adc_cc` for the words above. -/
def addLimbs (env : CPUARMState) (a b : Word) (pairs : List (Word × Word)) : CPUARMState × List Word :=
  let (env, result) := env.addCc a b
  let (env, results) := limbs adcCc env pairs
  (env, result :: results)

/-- `sub_cc`, and `sbc_cc` for the words above. -/
def subLimbs (env : CPUARMState) (a b : Word) (pairs : List (Word × Word)) : CPUARMState × List Word :=
  let (env, result) := env.subCc a b
  let (env, results) := limbs sbcCc env pairs
  (env, result :: results)

end CPUARMState

/-- The sum of two long words and a carry: the words of the result, and the flags. -/
structure AddsLimbs (env : CPUARMState) (results as bs : List Word) (carry : ℕ) : Prop where
  length : results.length = as.length
  cf : env.cf = 0 ∨ env.cf = 1
  sum : wordsValue results + 2 ^ (32 * as.length) * env.cf.toNat = wordsValue as + wordsValue bs + carry
  overflow : env.vf.getLsbD 31 = true ↔ signedValue results ≠ signedValue as + signedValue bs + carry
  nf : results.getLast? = some env.nf
  zf : env.zf = env.nf

variable {env env' : CPUARMState} {a b result : Word} {carry : ℕ}

/-- **A word below a chain.** The carry out of the word is the carry into the chain, in the sum and in the signed
sum. -/
theorem AddsWithCarry.cons (hlow : AddsWithCarry env result a b carry) {results as bs : List Word}
    (hlength : bs.length = as.length) (hne : as ≠ []) (hhigh : AddsLimbs env' results as bs env.cf.toNat) :
    AddsLimbs env' (result :: results) (a :: as) (b :: bs) carry where
  length := congrArg (· + 1) hhigh.length
  cf := hhigh.cf
  sum := by
    have hl := hlow.sum
    have hh := hhigh.sum
    rw [wordsValue_cons, wordsValue_cons, wordsValue_cons, length_cons, pow_words_succ, mul_assoc]
    omega
  overflow := by
    have hbs : bs ≠ [] := by
      rw [← length_pos_iff, hlength]
      exact length_pos_iff.2 hne
    have hresults : results ≠ [] := by
      rw [← length_pos_iff, hhigh.length]
      exact length_pos_iff.2 hne
    have hl := hlow.sum
    rw [hhigh.overflow, signedValue_cons a hne, signedValue_cons b hbs, signedValue_cons result hresults, not_iff_not]
    omega
  nf := by
    have hresults : results ≠ [] := by
      rw [← length_pos_iff, hhigh.length]
      exact length_pos_iff.2 hne
    rw [List.getLast?_cons_of_ne_nil hresults]
    exact hhigh.nf
  zf := hhigh.zf

theorem AddsWithCarry.single (hadd : AddsWithCarry env result a b carry) :
    AddsLimbs env [result] [a] [b] carry where
  length := rfl
  cf := hadd.cf
  sum := by
    have hsum := hadd.sum
    simpa using hsum
  overflow := by
    rw [signedValue_singleton, signedValue_singleton, signedValue_singleton]
    exact hadd.overflow
  nf := congrArg some hadd.nf.symm
  zf := hadd.zf.trans hadd.nf.symm

/-- **A chain above a word**, for a helper that adds `f b` with the carry in `CF`. -/
theorem AddsWithCarry.chain {helper : CPUARMState → Word → Word → CPUARMState × Word} {f : Word → Word}
    (hhelper : ∀ (env : CPUARMState), env.cf = 0 ∨ env.cf = 1 → ∀ a b,
      AddsWithCarry (helper env a b).1 (helper env a b).2 a (f b) env.cf.toNat)
    (hadd : AddsWithCarry env result a (f b) carry) (pairs : List (Word × Word)) :
    AddsLimbs (env.limbs helper pairs).1 (result :: (env.limbs helper pairs).2) (a :: pairs.map Prod.fst)
      (f b :: pairs.map (f ·.2)) carry := by
  induction pairs generalizing env result a b carry with
  | nil => exact hadd.single
  | cons pair pairs ih =>
    obtain ⟨a', b'⟩ := pair
    have hnext := ih (hhelper env hadd.cf a' b')
    exact hadd.cons (by simp) (by simp) hnext

/-- The words and the flags of a long operation: `exact` is its result as an integer, and `signed` its result on
signed operands. -/
structure LongResult (env : CPUARMState) (results : List Word) (n : ℕ) (exact signed : ℤ) (carry : Prop) : Prop where
  length : results.length = n
  value : (wordsValue results : ℤ) = exact % 2 ^ (32 * n)
  cf : env.cf = 0 ∨ env.cf = 1
  carry : env.cf = 1 ↔ carry
  overflow : env.vf.getLsbD 31 = true ↔ ¬ (-2 ^ (32 * n - 1) ≤ signed ∧ signed < 2 ^ (32 * n - 1))
  /-- `NF` and `ZF` are the top word. -/
  top : results.getLast? = some env.nf ∧ env.zf = env.nf
  negative : env.nf.getLsbD 31 = true ↔ signedValue results < 0

/-- The sign of the top word is that of the number. -/
theorem signedValue_neg_iff {top : Word} (h : words.getLast? = some top) :
    top.getLsbD 31 = true ↔ signedValue words < 0 := by
  induction words with
  | nil => simp at h
  | cons w words ih =>
    cases words with
    | nil =>
      obtain rfl : w = top := by simpa using h
      rw [signedValue_singleton, CPUARMState.getLsbD_31, CPUARMState.toInt_eq]
      have hw := w.isLt
      split_ifs with hsign
      · exact iff_of_true (decide_eq_true hsign) (by omega)
      · exact iff_of_false (by simpa using hsign) (by omega)
    | cons v words =>
      have hw := w.isLt
      rw [signedValue_cons w (cons_ne_nil v words), ih (by simpa using h)]
      omega

/-- The words are those of a signed number exactly if it is in range. -/
theorem signedValue_eq_iff (hne : words ≠ []) {x : ℤ}
    (hx : x % 2 ^ (32 * words.length) = wordsValue words) :
    signedValue words = x ↔
      -2 ^ (32 * words.length - 1) ≤ x ∧ x < 2 ^ (32 * words.length - 1) := by
  have hbounds := signedValue_bounds hne
  constructor
  · rintro rfl
    exact hbounds
  · intro hrange
    have hdvd : (2 : ℤ) ^ (32 * words.length) ∣ signedValue words - x :=
      Int.dvd_of_emod_eq_zero (Int.emod_eq_emod_iff_emod_sub_eq_zero.1 ((signedValue_emod words).trans hx.symm))
    have hpow : (2 : ℤ) ^ (32 * words.length) = 2 * 2 ^ (32 * words.length - 1) := by
      have := length_pos_of_ne_nil hne
      rw [← pow_succ', Nat.sub_add_cancel (by omega)]
    have hzero : signedValue words - x = 0 := by
      apply Int.eq_zero_of_abs_lt_dvd hdvd
      rw [hpow, abs_lt]
      omega
    omega

/-- The result of a sum that is for the integers `exact` and `signed`. -/
theorem AddsLimbs.longResult {results as bs : List Word} (hadd : AddsLimbs env results as bs carry) (hne : as ≠ [])
    {exact signed : ℤ} {carryOut : Prop}
    (hexact : ((wordsValue as + wordsValue bs + carry : ℕ) : ℤ) % 2 ^ (32 * as.length) = exact % 2 ^ (32 * as.length))
    (hsigned : signedValue as + signedValue bs + carry = signed)
    (hsame : signed % 2 ^ (32 * as.length) = exact % 2 ^ (32 * as.length))
    (hcarry : 2 ^ (32 * as.length) ≤ wordsValue as + wordsValue bs + carry ↔ carryOut) :
    LongResult env results as.length exact signed carryOut := by
  have hlt := wordsValue_lt results
  have hsum := hadd.sum
  rw [hadd.length] at hlt
  have hvalue : (wordsValue results : ℤ) = exact % 2 ^ (32 * as.length) := by
    rw [← hexact, ← hsum]
    push_cast
    rw [Int.add_mul_emod_self_left, Int.emod_eq_of_lt (by positivity) (by exact_mod_cast hlt)]
  have hresults : results ≠ [] := by
    rw [← length_pos_iff, hadd.length]
    exact length_pos_iff.2 hne
  refine ⟨hadd.length, hvalue, hadd.cf, ?_, ?_, ⟨hadd.nf, hadd.zf⟩, signedValue_neg_iff hadd.nf⟩
  · rw [← hcarry]
    rcases hadd.cf with hcf | hcf
    · rw [hcf] at hsum ⊢
      have hzero : (0 : Word).toNat = 0 := rfl
      rw [hzero] at hsum
      exact iff_of_false (by decide) (by omega)
    · rw [hcf] at hsum ⊢
      have hone : (1 : Word).toNat = 1 := rfl
      rw [hone] at hsum
      exact iff_of_true rfl (by omega)
  · have hiff := signedValue_eq_iff hresults (hadd.length ▸ hsame.trans hvalue.symm)
    rw [hadd.overflow, hsigned, ne_eq, hiff, hadd.length]

/-- **Chains are exact.** Whatever the flags are before, `add_cc` with `adc_cc` is the addition of long words, and
`sub_cc` with `sbc_cc` their subtraction: `CF` is the carry out, or that there is no borrow. -/
theorem carryChains_exact (env : CPUARMState) (a b : Word) (pairs : List (Word × Word)) :
    let as := ((a, b) :: pairs).map Prod.fst
    let bs := ((a, b) :: pairs).map Prod.snd
    let n := pairs.length + 1
    LongResult (env.addLimbs a b pairs).1 (env.addLimbs a b pairs).2 n (wordsValue as + wordsValue bs)
        (signedValue as + signedValue bs) (2 ^ (32 * n) ≤ wordsValue as + wordsValue bs) ∧
      LongResult (env.subLimbs a b pairs).1 (env.subLimbs a b pairs).2 n (wordsValue as - wordsValue bs)
        (signedValue as - signedValue bs) (wordsValue bs ≤ wordsValue as) := by
  intro as bs n
  have hn : n = as.length := by simp [as, n]
  have has : as ≠ [] := cons_ne_nil _ _
  have hbs : bs ≠ [] := cons_ne_nil _ _
  have hlength : bs.length = as.length := by simp [as, bs]
  have hA := signedValue_emod as
  have hB := signedValue_emod bs
  rw [hlength] at hB
  constructor
  · have hchain : AddsLimbs (env.addLimbs a b pairs).1 (env.addLimbs a b pairs).2 as bs 0 :=
      AddsWithCarry.chain (f := id) (fun env hcf a b => CPUARMState.adcCc_adds hcf a b)
        (CPUARMState.addCc_adds env a b) pairs
    rw [hn]
    refine hchain.longResult has (by push_cast; simp) (by simp) ?_ (by simp)
    rw [Int.add_emod, hA, hB]
  · have hmap : ~~~ b :: pairs.map (fun pair => ~~~ pair.2) = bs.map (~~~ ·) := by simp [bs]
    have hchain : AddsLimbs (env.subLimbs a b pairs).1 (env.subLimbs a b pairs).2 as (bs.map (~~~ ·)) 1 := by
      rw [← hmap]
      exact (CPUARMState.subCc_adds env a b).chain (fun env hcf a b => CPUARMState.sbcCc_adds hcf a b) pairs
    have hnot := wordsValue_not bs
    rw [hlength] at hnot
    rw [hn]
    refine hchain.longResult has ?_ ?_ ?_ ?_
    · have hcast : ((wordsValue as + wordsValue (bs.map (~~~ ·)) + 1 : ℕ) : ℤ) =
          (wordsValue as - wordsValue bs : ℤ) + 2 ^ (32 * as.length) := by
        have : ((2 ^ (32 * as.length) : ℕ) : ℤ) = 2 ^ (32 * as.length) := by push_cast; rfl
        omega
      rw [hcast, Int.add_emod_right]
    · rw [signedValue_not hbs]
      push_cast
      ring
    · rw [Int.sub_emod, hA, hB]
    · omega

end Emulator.Arm
