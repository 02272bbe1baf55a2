import Mathlib.Tactic

/-!
# The SIM lock

`telephony/sim_card.c` and the handler of `+CPIN=` in `telephony/android_modem.c`. The PUK has eight digits, but the
handler takes an argument of nine characters apart and checks the first four of them as the PUK.

* `handle_puk`: no command leaves the PUK state for the ready state;
* `pinState_at`: in the PIN state every command so far was a wrong PIN, and the counter counts them;
* `locking_iff`: the lock does what it should in the runs that never give the PUK where it is asked for.
-/

namespace Emulator.Telephony

inductive ASimStatus
  | absent
  | notReady
  | ready
  | pin
  | puk
  | networkPersonalization
  deriving DecidableEq, Repr

def simPinSize : ℕ := 4
def simPukSize : ℕ := 8

structure ASimCard where
  status : ASimStatus
  pin : List UInt8
  puk : List UInt8
  pinRetries : ℤ
  deriving DecidableEq, Repr

/-- `strncpy` of at most `n` characters into a buffer with a 0 behind them. -/
def strncpy (src : List UInt8) (n : ℕ) : List UInt8 := src.take n

/-- `asimcard_create`: the PIN `0000` and the PUK `12345678`. -/
def asimcardCreate : ASimCard := ⟨.ready, [48, 48, 48, 48], [49, 50, 51, 52, 53, 54, 55, 56], 0⟩

def asimcardSetStatus (sim : ASimCard) (status : ASimStatus) : ASimCard := { sim with status := status }

def asimcardSetPin (sim : ASimCard) (pin : List UInt8) : ASimCard :=
  { sim with pin := strncpy pin simPinSize, pinRetries := 0 }

def asimcardSetPuk (sim : ASimCard) (puk : List UInt8) : ASimCard :=
  { sim with puk := strncpy puk simPukSize, pinRetries := 0 }

/-- `asimcard_check_pin`: the result of the call and the card. -/
def asimcardCheckPin (sim : ASimCard) (pin : List UInt8) : Bool × ASimCard :=
  if sim.status ≠ .pin ∧ sim.status ≠ .ready then (false, sim)
  else if sim.pin = pin then (true, { sim with status := .ready, pinRetries := 0 })
  else if sim.status ≠ .ready then
    (false, { sim with
      pinRetries := sim.pinRetries + 1
      status := if sim.pinRetries + 1 = 3 then .puk else sim.status })
  else (false, sim)

/-- `asimcard_check_puk`. -/
def asimcardCheckPuk (sim : ASimCard) (puk pin : List UInt8) : Bool × ASimCard :=
  if sim.status ≠ .puk then (false, sim)
  else if sim.puk = puk then
    (true, { sim with
      puk := strncpy puk simPukSize
      pin := strncpy pin simPinSize
      status := .ready
      pinRetries := 0 })
  else
    (false, { sim with
      pinRetries := sim.pinRetries + 1
      status := if sim.pinRetries + 1 = 6 then .absent else sim.status })

/-- `handleChangeOrEnterPIN`, where `cmd` is what comes behind `+CPIN=`: the answer and the card. -/
def handleChangeOrEnterPIN (cmd : List UInt8) (sim : ASimCard) : String × ASimCard :=
  match sim.status with
  | .absent => ("+CME ERROR: SIM ABSENT", sim)
  | .notReady => ("+CME ERROR: SIM NOT READY", sim)
  | .ready =>
    if cmd.length = 9 ∧ cmd[4]? = some 44 then
      let (ok, sim) := asimcardCheckPin sim (cmd.take 4)
      if !ok then ("+CME ERROR: BAD PIN", sim)
      else ("+CPIN: READY", asimcardSetPin sim (cmd.drop 5))
    else ("+CME ERROR: BAD FORMAT", sim)
  | .pin =>
    let (ok, sim) := asimcardCheckPin sim cmd
    (if ok then "+CPIN: READY" else "+CME ERROR: BAD PIN", sim)
  | .puk =>
    if cmd.length = 9 ∧ cmd[4]? = some 44 then
      let (ok, sim) := asimcardCheckPuk sim (cmd.take 4) (cmd.drop 5)
      (if ok then "+CPIN: READY" else "+CME ERROR: BAD PUK", sim)
    else ("+CME ERROR: BAD PUK", sim)
  | .networkPersonalization => ("+CPIN: PH-NET PIN", sim)

/-- The card before the command with the index `n`. -/
def simAt (sim : ASimCard) (cmds : List (List UInt8)) (n : ℕ) : ASimCard :=
  (cmds.take n).foldl (fun sim cmd => (handleChangeOrEnterPIN cmd sim).2) sim

/-- A card with a PIN and a PUK that the other functions of `sim_card.h` have set. -/
def simStart (status : ASimStatus) (pin puk : List UInt8) : ASimCard :=
  asimcardSetStatus (asimcardSetPuk (asimcardSetPin asimcardCreate pin) puk) status

def Digits (n : ℕ) (s : List UInt8) : Prop := s.length = n ∧ ∀ c ∈ s, 48 ≤ c ∧ c ≤ 57

section Lock

variable (sim : ASimCard) (cmds : List (List UInt8))

/-- The command `n` is a wrong PIN where the PIN is asked for. -/
def WrongPin (n : ℕ) : Prop :=
  (simAt sim cmds n).status = .pin ∧ ∃ cmd, cmds[n]? = some cmd ∧ cmd ≠ (simAt sim cmds n).pin

/-- The command `n` is given where the PUK is asked for, and has not the PUK in front. -/
def WrongPuk (n : ℕ) : Prop :=
  (simAt sim cmds n).status = .puk ∧
    ∃ cmd, cmds[n]? = some cmd ∧ ¬ ∃ new, cmd = (simAt sim cmds n).puk ++ 44 :: new

/-- The command `n` is the PUK and a new PIN where the PUK is asked for. -/
def RightPuk (n : ℕ) (new : List UInt8) : Prop :=
  (simAt sim cmds n).status = .puk ∧ Digits 4 new ∧ cmds[n]? = some ((simAt sim cmds n).puk ++ 44 :: new)

/-- **The lock holds and the PUK opens it**, along a run of commands. -/
structure LockHolds : Prop where
  pin : ∀ n cmd, cmds[n]? = some cmd → (simAt sim cmds n).status = .pin → (simAt sim cmds (n + 1)).status ≠ .pin →
    (simAt sim cmds (n + 1)).status = .ready ∧ cmd = (simAt sim cmds n).pin ∨
    (simAt sim cmds (n + 1)).status = .puk ∧ 2 ≤ n ∧ ∀ i, i ≤ 2 → WrongPin sim cmds (n - i)
  puk : ∀ n cmd, cmds[n]? = some cmd → (simAt sim cmds n).status = .puk → (simAt sim cmds (n + 1)).status ≠ .puk →
    (simAt sim cmds (n + 1)).status = .ready ∧ (∃ new, cmd = (simAt sim cmds n).puk ++ 44 :: new) ∨
    (simAt sim cmds (n + 1)).status = .absent ∧ WrongPuk sim cmds n
  threePins : ∀ n, WrongPin sim cmds n → WrongPin sim cmds (n + 1) → WrongPin sim cmds (n + 2) →
    (simAt sim cmds (n + 3)).status = .puk
  wrongPuks : ∀ n, WrongPuk sim cmds n → WrongPuk sim cmds (n + 1) → WrongPuk sim cmds (n + 2) →
    ∀ m, n + 3 ≤ m → (simAt sim cmds m).status ≠ .ready
  unlock : ∀ n new, RightPuk sim cmds n new →
    (simAt sim cmds (n + 1)).status = .ready ∧ (simAt sim cmds (n + 1)).pin = new

end Lock

theorem handle_pin {sim : ASimCard} (h : sim.status = .pin) (cmd : List UInt8) :
    (handleChangeOrEnterPIN cmd sim).2 =
      if sim.pin = cmd then { sim with status := .ready, pinRetries := 0 }
      else { sim with pinRetries := sim.pinRetries + 1, status := if sim.pinRetries + 1 = 3 then .puk else .pin } := by
  simp only [handleChangeOrEnterPIN, asimcardCheckPin, h]
  split_ifs with h1 h2 h3 <;> simp_all

/-- **No command opens the lock where the PUK is asked for**: four characters are never the PUK. -/
theorem handle_puk {sim : ASimCard} (h : sim.status = .puk) (hpuk : sim.puk.length = 8) (cmd : List UInt8) :
    (handleChangeOrEnterPIN cmd sim).2.puk = sim.puk ∧
      ((handleChangeOrEnterPIN cmd sim).2.status = .puk ∨
        (handleChangeOrEnterPIN cmd sim).2.status = .absent ∧ cmd[4]? = some 44) := by
  simp only [handleChangeOrEnterPIN, h]
  by_cases h9 : cmd.length = 9 ∧ cmd[4]? = some 44
  · have hne : sim.puk ≠ cmd.take 4 := by
      intro he
      have hlen := congrArg List.length he
      rw [hpuk, List.length_take] at hlen
      omega
    simp only [if_pos h9, asimcardCheckPuk, h, ne_eq, not_true_eq_false, if_false, if_neg hne, true_and]
    split_ifs
    · exact Or.inr ⟨rfl, h9.2⟩
    · exact Or.inl rfl
  · simp only [if_neg h9, true_and]
    exact Or.inl h

theorem handle_absent {sim : ASimCard} (h : sim.status = .absent) (cmd : List UInt8) :
    (handleChangeOrEnterPIN cmd sim).2 = sim := by
  simp only [handleChangeOrEnterPIN, h]

/-- The states that are neither waiting for the PIN nor for the PUK are not left for these. -/
theorem handle_other {sim : ASimCard} (h1 : sim.status ≠ .pin) (h2 : sim.status ≠ .puk) (cmd : List UInt8) :
    (handleChangeOrEnterPIN cmd sim).2.puk = sim.puk ∧ (handleChangeOrEnterPIN cmd sim).2.status = sim.status := by
  unfold handleChangeOrEnterPIN
  cases hs : sim.status with
  | pin => exact absurd hs h1
  | puk => exact absurd hs h2
  | ready =>
    simp only [asimcardCheckPin, hs]
    split_ifs <;> simp_all [asimcardSetPin]
  | absent => exact ⟨rfl, hs⟩
  | notReady => exact ⟨rfl, hs⟩
  | networkPersonalization => exact ⟨rfl, hs⟩

theorem simAt_succ (sim : ASimCard) {cmds : List (List UInt8)} {n : ℕ} {cmd : List UInt8} (h : cmds[n]? = some cmd) :
    simAt sim cmds (n + 1) = (handleChangeOrEnterPIN cmd (simAt sim cmds n)).2 := by
  unfold simAt
  rw [List.take_add_one, h, List.foldl_append]
  rfl

/-- Behind the last command nothing changes. -/
theorem simAt_end (sim : ASimCard) {cmds : List (List UInt8)} {n : ℕ} (h : cmds[n]? = none) :
    simAt sim cmds (n + 1) = simAt sim cmds n := by
  unfold simAt
  rw [List.take_add_one, h]
  simp

/-- The PUK stays, and in the PIN state the commands so far were wrong PINs, which the counter counts. -/
theorem pinState_at {sim : ASimCard} (hlen : sim.puk.length = 8) (hretries : sim.pinRetries = 0)
    (cmds : List (List UInt8)) (n : ℕ) : (simAt sim cmds n).puk = sim.puk ∧
      (n ≤ cmds.length → (simAt sim cmds n).status = .pin →
        (simAt sim cmds n).pinRetries = n ∧ n < 3 ∧ ∀ i, i < n → WrongPin sim cmds i) := by
  induction n with
  | zero => exact ⟨rfl, fun _ _ => ⟨hretries, by omega, fun i hi => absurd hi (by omega)⟩⟩
  | succ n ih =>
    obtain ⟨hpuk, ih⟩ := ih
    cases hcmd : cmds[n]? with
    | none =>
      rw [simAt_end sim hcmd]
      have hle := List.getElem?_eq_none_iff.1 hcmd
      exact ⟨hpuk, fun h => absurd h (by omega)⟩
    | some cmd =>
      have hlt : n < cmds.length := (List.getElem?_eq_some_iff.1 hcmd).1
      rw [simAt_succ sim hcmd]
      by_cases h1 : (simAt sim cmds n).status = .pin
      · obtain ⟨hcount, h3, hwrong⟩ := ih (by omega) h1
        rw [handle_pin h1]
        by_cases hright : (simAt sim cmds n).pin = cmd
        · rw [if_pos hright]
          exact ⟨hpuk, fun _ h => nomatch h⟩
        · rw [if_neg hright, hcount]
          refine ⟨hpuk, fun _ h => ?_⟩
          have h3' : ¬ (n : ℤ) + 1 = 3 := fun he => by simp [he] at h
          refine ⟨by push_cast; rfl, by omega, fun i hi => ?_⟩
          rcases Nat.lt_succ_iff_lt_or_eq.1 hi with hi | rfl
          · exact hwrong i hi
          · exact ⟨h1, cmd, hcmd, fun he => hright he.symm⟩
      · by_cases h2 : (simAt sim cmds n).status = .puk
        · obtain ⟨hp, hs⟩ := handle_puk h2 (by rw [hpuk, hlen]) cmd
          refine ⟨hp.trans hpuk, fun _ h => ?_⟩
          rcases hs with hs | ⟨hs, -⟩
          · exact nomatch hs.symm.trans h
          · exact nomatch hs.symm.trans h
        · obtain ⟨hp, hs⟩ := handle_other h1 h2 cmd
          exact ⟨hp.trans hpuk, fun _ h => absurd (hs.symm.trans h) h1⟩

/-- Where the PUK is asked for, or where there is no card any more, the card is not ready any more. -/
theorem locked_at {sim : ASimCard} (hlen : sim.puk.length = 8) (hretries : sim.pinRetries = 0)
    (cmds : List (List UInt8)) {n m : ℕ} (hnm : n ≤ m)
    (h : (simAt sim cmds n).status = .puk ∨ (simAt sim cmds n).status = .absent) :
    (simAt sim cmds m).status = .puk ∨ (simAt sim cmds m).status = .absent := by
  induction m, hnm using Nat.le_induction with
  | base => exact h
  | succ m _ ih =>
    cases hcmd : cmds[m]? with
    | none => rwa [simAt_end sim hcmd]
    | some cmd =>
      rw [simAt_succ sim hcmd]
      rcases ih with ih | ih
      · have hpuk : (simAt sim cmds m).puk.length = 8 := by rw [(pinState_at hlen hretries cmds m).1, hlen]
        exact (handle_puk ih hpuk cmd).2.imp id And.left
      · rw [handle_absent ih]
        exact Or.inr ih

section Lock

variable {sim : ASimCard} {cmds : List (List UInt8)}

/-- The PIN state is left by the PIN, or with the third wrong PIN in a row. -/
theorem lockPin (hlen : sim.puk.length = 8) (hretries : sim.pinRetries = 0) {n : ℕ} {cmd : List UInt8}
    (hcmd : cmds[n]? = some cmd) (hs : (simAt sim cmds n).status = .pin)
    (hleft : (simAt sim cmds (n + 1)).status ≠ .pin) :
    (simAt sim cmds (n + 1)).status = .ready ∧ cmd = (simAt sim cmds n).pin ∨
    (simAt sim cmds (n + 1)).status = .puk ∧ 2 ≤ n ∧ ∀ i, i ≤ 2 → WrongPin sim cmds (n - i) := by
  have hlt : n < cmds.length := (List.getElem?_eq_some_iff.1 hcmd).1
  obtain ⟨hcount, h3, hwrong⟩ := (pinState_at hlen hretries cmds n).2 hlt.le hs
  rw [simAt_succ sim hcmd, handle_pin hs, hcount] at hleft ⊢
  split_ifs at hleft ⊢ with hright h3'
  · exact Or.inl ⟨rfl, hright.symm⟩
  · refine Or.inr ⟨rfl, by omega, fun i hi => ?_⟩
    rcases Nat.eq_zero_or_pos i with rfl | hi0
    · exact ⟨hs, cmd, hcmd, fun he => hright he.symm⟩
    · exact hwrong (n - i) (by omega)
  · exact absurd rfl hleft

/-- Only a wrong PUK takes the card out of the PUK state. -/
theorem lockPuk (hpuk : Digits 8 sim.puk) (hretries : sim.pinRetries = 0) {n : ℕ} {cmd : List UInt8}
    (hcmd : cmds[n]? = some cmd) (hs : (simAt sim cmds n).status = .puk)
    (hleft : (simAt sim cmds (n + 1)).status ≠ .puk) :
    (simAt sim cmds (n + 1)).status = .absent ∧ WrongPuk sim cmds n := by
  have hp := (pinState_at hpuk.1 hretries cmds n).1
  rw [simAt_succ sim hcmd] at hleft ⊢
  rcases (handle_puk hs (by rw [hp, hpuk.1]) cmd).2 with hs' | ⟨hs', h44⟩
  · exact absurd hs' hleft
  · refine ⟨hs', hs, cmd, hcmd, ?_⟩
    -- in front of the PUK the comma would be its fifth digit
    rintro ⟨new, rfl⟩
    rw [hp, List.getElem?_append_left (by rw [hpuk.1]; omega)] at h44
    exact absurd (hpuk.2 44 (List.mem_of_getElem? h44)).1 (by decide)

/-- After three wrong PINs in a row the card asks for the PUK. -/
theorem lockThreePins (hlen : sim.puk.length = 8) (hretries : sim.pinRetries = 0) {n : ℕ} (h0 : WrongPin sim cmds n)
    (h2 : WrongPin sim cmds (n + 2)) : (simAt sim cmds (n + 3)).status = .puk := by
  obtain ⟨hs2, cmd, hcmd, hne⟩ := h2
  have hlt := (List.getElem?_eq_some_iff.1 hcmd).1
  obtain ⟨hcount, h3, -⟩ := (pinState_at hlen hretries cmds (n + 2)).2 hlt.le hs2
  obtain rfl : n = 0 := by omega
  rw [simAt_succ sim hcmd, handle_pin hs2, if_neg fun he => hne he.symm, hcount]
  rfl

end Lock

/-- **The lock holds and the PUK opens it in the runs that never give the PUK**, with a comma and a new PIN, where it
is asked for. -/
theorem locking_iff (status : ASimStatus) (pin : List UInt8) {puk : List UInt8} (hpuk : Digits 8 puk)
    (cmds : List (List UInt8)) :
    LockHolds (simStart status pin puk) cmds ↔ ∀ n new, ¬ RightPuk (simStart status pin puk) cmds n new := by
  have hpuk' : Digits 8 (simStart status pin puk).puk := by
    have he : (simStart status pin puk).puk = puk := List.take_of_length_le hpuk.1.le
    rwa [he]
  have hretries : (simStart status pin puk).pinRetries = 0 := rfl
  generalize simStart status pin puk = sim at hpuk' hretries
  constructor
  · intro h n new hright
    have hcmd := hright.2.2
    have hready := (h.unlock n new hright).1
    rw [simAt_succ sim hcmd] at hready
    have hp := (pinState_at hpuk'.1 hretries cmds n).1
    rcases (handle_puk hright.1 (by rw [hp, hpuk'.1]) _).2 with hs | ⟨hs, -⟩
    · exact nomatch hs.symm.trans hready
    · exact nomatch hs.symm.trans hready
  · intro hnone
    exact {
      pin := fun n cmd hcmd hs hleft => lockPin hpuk'.1 hretries hcmd hs hleft
      puk := fun n cmd hcmd hs hleft => Or.inr (lockPuk hpuk' hretries hcmd hs hleft)
      threePins := fun n h0 _ h2 => lockThreePins hpuk'.1 hretries h0 h2
      wrongPuks := fun n h0 _ _ m hm hready => by
        rcases locked_at hpuk'.1 hretries cmds (show n ≤ m by omega) (Or.inl h0.1) with hs | hs
        · exact nomatch hs.symm.trans hready
        · exact nomatch hs.symm.trans hready
      unlock := fun n new hright => absurd hright (hnone n new) }

/-- Three wrong PINs, then the PUK as the handler takes it apart, and once more with another first digit. -/
theorem locking_iff_fourDigits : LockHolds (simStart .pin [49, 50, 51, 52] [49, 50, 51, 52, 53, 54, 55, 56])
      [[48], [48], [48], [49, 50, 51, 52, 44, 52, 51, 50, 49], [48, 50, 51, 52, 44, 52, 51, 50, 49]] ↔
    ∀ n new, ¬ RightPuk (simStart .pin [49, 50, 51, 52] [49, 50, 51, 52, 53, 54, 55, 56])
      [[48], [48], [48], [49, 50, 51, 52, 44, 52, 51, 50, 49], [48, 50, 51, 52, 44, 52, 51, 50, 49]] n new :=
  locking_iff .pin [49, 50, 51, 52] ⟨rfl, by decide +kernel⟩ _

/-- Three wrong PINs, then the PUK with a new PIN. -/
theorem lockHolds_rightPuk : ¬ LockHolds (simStart .pin [49, 50, 51, 52] [49, 50, 51, 52, 53, 54, 55, 56])
    [[48], [48], [48], [49, 50, 51, 52, 53, 54, 55, 56, 44, 52, 51, 50, 49]] := by
  intro h
  have hright := h.unlock 3 [52, 51, 50, 49] ⟨rfl, ⟨rfl, by decide +kernel⟩, rfl⟩
  exact absurd hright.1 (by decide)

end Emulator.Telephony
