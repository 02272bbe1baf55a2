import Mathlib.Tactic

/-!
# Operator selection

`handleOperatorSelection` of `telephony/android_modem.c`. The loop over the operators calls `memcpy` where it should
compare: it writes the name of the command into every record, and as the pointer that `memcpy` returns is not `NULL` it
finds no operator.

* `findOperator_eq`: the loop overwrites the names and finds nothing;
* `rejection_iff`: a rejected selection changes nothing exactly when every operator has that name already.
-/

namespace Emulator.Telephony

open List hiding format
open Option hiding format

inductive ARadioState
  | off
  | on
  deriving DecidableEq

inductive ARegistrationState
  | unregistered
  | home
  | searching
  | denied
  | unknown
  | roaming
  deriving DecidableEq

inductive AOperatorSelection
  | automatic
  | manual
  | deregistration
  | setFormat
  | manualAutomatic
  deriving DecidableEq

inductive AOperatorStatus
  | unknown
  | available
  | current
  | denied
  deriving DecidableEq

/-- The three names of an operator are arrays of 16 characters. -/
structure AOperatorRec where
  status : AOperatorStatus
  name : Fin 3 → Fin 16 → UInt8
  deriving DecidableEq

/-- The fields of the modem for the network. `operators` is the first `oper_count` records of the array. -/
structure OperatorModem where
  radioState : ARadioState
  voiceState : ARegistrationState
  dataState : ARegistrationState
  operSelectionMode : AOperatorSelection
  operNameIndex : Fin 3
  operIndex : ℤ
  operators : List AOperatorRec
  deriving DecidableEq

def operatorHomeIndex : ℕ := 0
def operatorRoamingIndex : ℕ := 1

def AOperatorSelection.code : AOperatorSelection → ℕ
  | .automatic => 0
  | .manual => 1
  | .deregistration => 2
  | .setFormat => 3
  | .manualAutomatic => 4

def AOperatorStatus.code : AOperatorStatus → ℕ
  | .unknown => 0
  | .available => 1
  | .current => 2
  | .denied => 3

/-- What a handler returns: `NULL`, which is answered with `OK`, an error or a line. -/
inductive Answer
  | null
  | error (text : String)
  | line (text : List UInt8)
  deriving DecidableEq

def bytesOf (s : String) : List UInt8 := s.toUTF8.toList

/-- `%d`. -/
def decimal (n : ℕ) : List UInt8 := bytesOf (toString n)

/-- `%s` of a name. -/
def nameText (name : Fin 16 → UInt8) : List UInt8 := (List.ofFn name).takeWhile (· ≠ 0)

/-- `unknownCommand`. -/
def unknownCommand : Answer := .error "ERROR: unknown command\r"

/-- `amodem_has_network`. -/
def amodemHasNetwork (modem : OperatorModem) : Bool :=
  !(modem.radioState = .off || modem.operIndex < 0 || modem.operators.length ≤ modem.operIndex ||
    modem.operSelectionMode = .deregistration)

/-- `memcpy` into a name: the name, and whether the pointer that is returned is not `NULL`. It is the destination.
`none` if the copy does not fit into the name. -/
def memcpy (dst : Fin 16 → UInt8) (src : List UInt8) : Option ((Fin 16 → UInt8) × Bool) :=
  if src.length ≤ 16 then some (fun i => (src[i.val]?).getD (dst i), true) else none

def AOperatorRec.setName (oper : AOperatorRec) (format : Fin 3) (name : Fin 16 → UInt8) : AOperatorRec :=
  { oper with name := Function.update oper.name format name }

/-- The loop over the operators from the index `nn` on: the records, and `found`. -/
def findOperator (format : Fin 3) (cmd : List UInt8) : List AOperatorRec → ℕ → Option (List AOperatorRec × Option ℕ)
  | [], _ => some ([], none)
  | oper :: opers, nn => do
    let (name, returned) ← memcpy (oper.name format) cmd
    let oper := oper.setName format name
    if !returned && (List.ofFn name)[cmd.length]? = some 0 then some (oper :: opers, some nn)
    else
      let (opers, found) ← findOperator format cmd opers (nn + 1)
      some (oper :: opers, found)

/-- `cmd[3] - '0'`, if it is 0, 1 or 2. -/
def formatOf (c : UInt8) : Option (Fin 3) :=
  if c = 48 then some 0 else if c = 49 then some 1 else if c = 50 then some 2 else none

/-- The name of a selection, without the quotes; the last character is dropped behind a quote. -/
def selectedName (arg : List UInt8) : List UInt8 :=
  if arg.head? = some 34 then (arg.drop 1).take (arg.length - 2) else arg

/-- The selection of the operator with a name, from `for` on. -/
def selectOperator (modem : OperatorModem) (format : Fin 3) (name : List UInt8) : Option (Answer × OperatorModem) := do
  let (opers, found) ← findOperator format name modem.operators 0
  let modem := { modem with operators := opers }
  match found with
  | none => some (.error "+CME ERROR: 529", modem)
  | some found =>
    let oper ← opers[found]?
    if oper.status = .denied then some (.error "+CME ERROR: 32", modem)
    else
      let modem := { modem with operIndex := found }
      if found = operatorHomeIndex then some (.null, { modem with voiceState := .home, dataState := .home })
      else if found = operatorRoamingIndex then
        some (.null, { modem with voiceState := .roaming, dataState := .roaming })
      else some (.null, modem)

/-- The answer to `?`: the current operator. -/
def currentOperator (modem : OperatorModem) : Answer :=
  if !amodemHasNetwork modem then .error "+CME ERROR: 30"
  else
    match modem.operators[modem.operIndex.toNat]? with
    | none => .error "+CME ERROR: 30"
    | some oper =>
      let mode := bytesOf "+COPS: " ++ decimal modem.operSelectionMode.code
      if modem.operNameIndex = 2 then .line (mode ++ bytesOf ",2," ++ nameText (oper.name 2))
      else
        .line (mode ++ bytesOf "," ++ decimal modem.operNameIndex ++ bytesOf ",\"" ++
          nameText (oper.name modem.operNameIndex) ++ bytesOf "\"")

/-- The answer to `=?`: all operators. -/
def allOperators : List AOperatorRec → (comma : String) → List UInt8
  | [], _ => []
  | oper :: opers, comma =>
    bytesOf comma ++ bytesOf "(" ++ decimal oper.status.code ++ bytesOf ",\"" ++ nameText (oper.name 0) ++
      bytesOf "\",\"" ++ nameText (oper.name 1) ++ bytesOf "\",\"" ++ nameText (oper.name 2) ++ bytesOf "\")" ++
      allOperators opers ", "

/-- `handleOperatorSelection`, where `cmd` is what comes behind `+COPS`. A character behind the end of `cmd` is the 0
there. -/
def handleOperatorSelection (cmd : List UInt8) (modem : OperatorModem) : Option (Answer × OperatorModem) :=
  let c := fun i => cmd.getD i 0
  if c 0 = 63 then some (currentOperator modem, modem)
  else if c 0 = 61 ∧ c 1 = 63 then some (.line (allOperators modem.operators "+COPS: "), modem)
  else if c 0 = 61 then
    if c 1 = 48 then some (.null, { modem with operSelectionMode := .automatic })
    else if c 1 = 49 then
      if c 2 ≠ 44 then some (unknownCommand, modem)
      else
        match formatOf (c 3) with
        | none => some (unknownCommand, modem)
        | some format =>
          if c 4 ≠ 44 then some (unknownCommand, modem)
          else if selectedName (cmd.drop 5) = [] then some (unknownCommand, modem)
          else selectOperator modem format (selectedName (cmd.drop 5))
    else if c 1 = 50 then some (.null, { modem with operSelectionMode := .deregistration })
    else if c 1 = 51 then
      if c 2 ≠ 44 then some (unknownCommand, modem)
      else
        match formatOf (c 3) with
        | none => some (unknownCommand, modem)
        | some format => some (.null, { modem with operNameIndex := format })
    else some (unknownCommand, modem)
  else some (unknownCommand, modem)

/-- A copy leaves a name as it is when the name starts with what is copied. -/
theorem memcpy_self {dst : Fin 16 → UInt8} {src : List UInt8} :
    memcpy dst src = some (dst, true) ↔ src <+: List.ofFn dst := by
  unfold memcpy
  split_ifs with hlen
  · simp only [Option.some.injEq, Prod.mk.injEq, and_true]
    rw [prefix_iff_getElem?]
    simp only [List.getElem?_ofFn]
    constructor
    · intro h i hi
      have h' := congrFun h ⟨i, by omega⟩
      simp only [List.getElem?_eq_getElem hi, getD_some] at h'
      rw [dif_pos (by omega), h']
    · intro h
      funext i
      by_cases hi : i.val < src.length
      · have h' := h i hi
        rw [dif_pos i.isLt] at h'
        rw [List.getElem?_eq_getElem hi]
        exact (Option.some.inj h').symm
      · rw [List.getElem?_eq_none (by omega), getD_none]
  · constructor
    · exact nofun
    · intro h
      have hle := h.length_le
      rw [length_ofFn] at hle
      omega

theorem setName_eq_self {oper : AOperatorRec} {format : Fin 3} {name : Fin 16 → UInt8} :
    oper.setName format name = oper ↔ name = oper.name format := by
  obtain ⟨status, names⟩ := oper
  simp [AOperatorRec.setName, Function.update_eq_self_iff]

/-- **The loop over the operators** finds none; it leaves the records as they are when they all have the name. -/
theorem findOperator_eq (format : Fin 3) (cmd : List UInt8) (opers : List AOperatorRec) (nn : ℕ) :
    (∀ opers' found, findOperator format cmd opers nn = some (opers', found) → found = none) ∧
      ((∃ found, findOperator format cmd opers nn = some (opers, found)) ↔
        ∀ oper ∈ opers, cmd <+: List.ofFn (oper.name format)) := by
  induction opers generalizing nn with
  | nil => simp [findOperator]
  | cons oper opers ih =>
    obtain ⟨hnone, hkeep⟩ := ih (nn + 1)
    cases hm : memcpy (oper.name format) cmd with
    | none =>
      have hnot : ¬ cmd <+: List.ofFn (oper.name format) := fun h => by simp [memcpy_self.2 h] at hm
      have hfind : findOperator format cmd (oper :: opers) nn = none := by simp only [findOperator, hm]; rfl
      rw [hfind, forall_mem_cons]
      refine ⟨nofun, ?_, fun h => absurd h.1 hnot⟩
      rintro ⟨found, h⟩
      exact absurd h (by simp)
    | some copied =>
      obtain ⟨name, returned⟩ := copied
      -- `memcpy` returns its destination: the second operand of `&&` is never looked at
      have hret : returned = true := by
        unfold memcpy at hm
        split_ifs at hm
        exact (Prod.mk.inj (Option.some.inj hm)).2.symm
      subst hret
      have hname : name = oper.name format ↔ cmd <+: List.ofFn (oper.name format) := by
        rw [← memcpy_self, hm]
        simp
      simp only [findOperator, hm, bind_eq_bind, bind_some, Bool.not_true, Bool.false_and,
        Bool.false_eq_true, if_false]
      constructor
      · intro opers' found h
        obtain ⟨⟨opers1, found1⟩, h1, h2⟩ := bind_eq_some_iff.1 h
        obtain ⟨-, rfl⟩ := Prod.mk.inj (Option.some.inj h2)
        exact hnone opers1 _ h1
      · rw [forall_mem_cons, ← hkeep, ← hname]
        constructor
        · rintro ⟨found, h⟩
          obtain ⟨⟨opers1, found1⟩, h1, h2⟩ := bind_eq_some_iff.1 h
          obtain ⟨h3, rfl⟩ := Prod.mk.inj (Option.some.inj h2)
          obtain ⟨h4, rfl⟩ := List.cons.inj h3
          exact ⟨setName_eq_self.1 h4, _, h1⟩
        · rintro ⟨h4, found, h1⟩
          exact ⟨found, by rw [h1]; simp [setName_eq_self.2 h4]⟩

/-- **An argument of `+COPS=` that is answered with an error changes nothing.** -/
def RejectionKeeps (modem : OperatorModem) (arg : List UInt8) : Prop :=
  ∃ answer modem', handleOperatorSelection (61 :: arg) modem = some (answer, modem') ∧
    ∀ text, answer = .error text → modem'.operators = modem.operators ∧ modem'.operIndex = modem.operIndex ∧
      modem'.operSelectionMode = modem.operSelectionMode

/-- The argument `1,<format>,<name>`. -/
def selectionArg (format : Fin 3) (name : List UInt8) : List UInt8 := 49 :: 44 :: .ofNat (48 + format) :: 44 :: name

theorem formatOf_ofNat (format : Fin 3) : formatOf (.ofNat (48 + format)) = some format := by
  revert format
  decide

theorem formatOf_some {c : UInt8} {format : Fin 3} (h : formatOf c = some format) : c = .ofNat (48 + format) := by
  unfold formatOf at h
  split_ifs at h with h0 h1 h2
  · obtain rfl := Option.some.inj h
    exact h0
  · obtain rfl := Option.some.inj h
    exact h1
  · obtain rfl := Option.some.inj h
    exact h2

/-- The selection of a name. -/
theorem selectOperator_keeps (modem : OperatorModem) (format : Fin 3) (name : List UInt8) :
    (∃ answer modem', selectOperator modem format name = some (answer, modem') ∧
      ∀ text, answer = .error text → modem'.operators = modem.operators ∧ modem'.operIndex = modem.operIndex ∧
        modem'.operSelectionMode = modem.operSelectionMode) ↔
      ∀ oper ∈ modem.operators, name <+: List.ofFn (oper.name format) := by
  obtain ⟨hnone, hkeep⟩ := findOperator_eq format name modem.operators 0
  rw [← hkeep]
  constructor
  · rintro ⟨answer, modem', h, hsame⟩
    obtain ⟨⟨opers, found⟩, h1, h2⟩ := bind_eq_some_iff.1 h
    obtain rfl := hnone opers found h1
    obtain ⟨rfl, rfl⟩ := Prod.mk.inj (Option.some.inj h2)
    obtain ⟨rfl, -⟩ := hsame _ rfl
    exact ⟨none, h1⟩
  · rintro ⟨found, h1⟩
    obtain rfl := hnone _ found h1
    exact ⟨_, _, by rw [selectOperator, h1]; rfl, fun _ _ => ⟨rfl, rfl, rfl⟩⟩

theorem handle_selectionArg (modem : OperatorModem) (format : Fin 3) (name : List UInt8) :
    handleOperatorSelection (61 :: selectionArg format name) modem =
      if selectedName name = [] then some (unknownCommand, modem)
      else selectOperator modem format (selectedName name) := by
  have hf := formatOf_ofNat format
  unfold handleOperatorSelection selectionArg
  generalize UInt8.ofNat (48 + format) = c at hf ⊢
  simp [hf]

/-- Every other argument is answered without a look at the names. -/
theorem selection_other {modem : OperatorModem} {arg : List UInt8}
    (hno : ∀ format name, arg ≠ selectionArg format name) :
    ∃ answer modem', handleOperatorSelection (61 :: arg) modem = some (answer, modem') ∧
      ∀ text, answer = .error text → modem' = modem := by
  have hkeep : ∃ answer modem', some (unknownCommand, modem) = some (answer, modem') ∧
      ∀ text, answer = .error text → modem' = modem := ⟨_, _, rfl, fun _ _ => rfl⟩
  rcases arg with _ | ⟨c1, arg⟩
  · exact hkeep
  unfold handleOperatorSelection
  simp only [getD_cons_zero, getD_cons_succ, drop_succ_cons]
  rw [if_neg (by decide)]
  by_cases h1 : c1 = 63
  · rw [if_pos ⟨trivial, h1⟩]
    exact ⟨_, _, rfl, nofun⟩
  rw [if_neg fun h => h1 h.2, if_pos trivial]
  by_cases h48 : c1 = 48
  · rw [if_pos h48]
    exact ⟨_, _, rfl, nofun⟩
  rw [if_neg h48]
  by_cases h49 : c1 = 49
  · rw [if_pos h49]
    by_cases h2 : arg.getD 0 0 = 44
    · rw [if_neg (not_not.2 h2)]
      cases hf : formatOf (arg.getD 1 0) with
      | none => exact hkeep
      | some format =>
        -- with a comma behind the format the argument would be a selection
        by_cases h4 : arg.getD 2 0 = 44
        · rcases arg with _ | ⟨c2, _ | ⟨c3, _ | ⟨c4, name⟩⟩⟩
          · exact absurd h4 (by simp)
          · exact absurd h4 (by simp)
          · exact absurd h4 (by simp)
          · simp only [getD_cons_zero, getD_cons_succ] at hf h4 h2
            rw [h49, h4, formatOf_some hf, h2] at hno
            exact absurd rfl (hno format name)
        · simp only [if_pos h4]
          exact hkeep
    · rw [if_pos h2]
      exact hkeep
  rw [if_neg h49]
  by_cases h50 : c1 = 50
  · rw [if_pos h50]
    exact ⟨_, _, rfl, nofun⟩
  rw [if_neg h50]
  by_cases h51 : c1 = 51
  · rw [if_pos h51]
    by_cases h2 : arg.getD 0 0 = 44
    · rw [if_neg (not_not.2 h2)]
      cases hf : formatOf (arg.getD 1 0) with
      | none => exact hkeep
      | some format => exact ⟨_, _, rfl, nofun⟩
    · rw [if_pos h2]
      exact hkeep
  rw [if_neg h51]
  exact hkeep

/-- **A rejected selection changes nothing exactly when every operator starts with the given name already.** -/
theorem rejection_iff (modem : OperatorModem) (arg : List UInt8) :
    RejectionKeeps modem arg ↔ ∀ format name, arg = selectionArg format name →
      ∀ oper ∈ modem.operators, selectedName name <+: List.ofFn (oper.name format) := by
  by_cases hsel : ∃ format name, arg = selectionArg format name
  · obtain ⟨format, name, rfl⟩ := hsel
    have hone : (∀ format' name', selectionArg format name = selectionArg format' name' →
        ∀ oper ∈ modem.operators, selectedName name' <+: List.ofFn (oper.name format')) ↔
        ∀ oper ∈ modem.operators, selectedName name <+: List.ofFn (oper.name format) := by
      constructor
      · intro h
        exact h format name rfl
      · intro h format' name' he
        simp only [selectionArg, List.cons.injEq, true_and] at he
        obtain ⟨hc, rfl⟩ := he
        have hf := congrArg formatOf hc
        rw [formatOf_ofNat, formatOf_ofNat] at hf
        exact Option.some.inj hf ▸ h
    rw [hone, RejectionKeeps, handle_selectionArg]
    by_cases hempty : selectedName name = []
    · rw [if_pos hempty, hempty]
      exact ⟨fun _ _ _ => nil_prefix, fun _ => ⟨_, _, rfl, fun _ _ => ⟨rfl, rfl, rfl⟩⟩⟩
    · rw [if_neg hempty]
      exact selectOperator_keeps modem format (selectedName name)
  · simp only [not_exists] at hsel
    constructor
    · intro _ format name he
      exact absurd he (hsel format name)
    · intro _
      obtain ⟨answer, modem', h, hsame⟩ := selection_other hsel
      refine ⟨answer, modem', h, fun text htext => ?_⟩
      obtain rfl := hsame text htext
      exact ⟨rfl, rfl, rfl⟩

/-- A name of 16 characters, with zeros behind the text. -/
def nameOf (text : List UInt8) : Fin 16 → UInt8 := fun i => text.getD i 0

/-- What `amodem_reset` leaves, with the radio on: the operators `Android`, 310260 and `TelKila`, 310295. -/
def operatorsReset : OperatorModem where
  radioState := .on
  voiceState := .home
  dataState := .home
  operSelectionMode := .automatic
  operNameIndex := 2
  operIndex := 0
  operators :=
    let android := nameOf [65, 110, 100, 114, 111, 105, 100]
    let telKila := nameOf [84, 101, 108, 75, 105, 108, 97]
    [⟨.available, ![android, android, nameOf [51, 49, 48, 50, 54, 48]]⟩,
      ⟨.available, ![telKila, telKila, nameOf [51, 49, 48, 50, 57, 53]]⟩]

/-- `+COPS=1,2,"00000"` is rejected and overwrites the numeric names of both operators. -/
theorem rejection_overwrites : ¬ RejectionKeeps operatorsReset (selectionArg 2 [34, 48, 48, 48, 48, 48, 34]) := by
  rintro ⟨answer, modem', h, hsame⟩
  have hanswer : (handleOperatorSelection (61 :: selectionArg 2 [34, 48, 48, 48, 48, 48, 34]) operatorsReset).map
      Prod.fst = some (.error "+CME ERROR: 529") := by decide +kernel
  have hnames : (handleOperatorSelection (61 :: selectionArg 2 [34, 48, 48, 48, 48, 48, 34]) operatorsReset).map
      (fun r => r.2.operators) ≠ some operatorsReset.operators := by decide +kernel
  rw [h] at hanswer hnames
  exact hnames (congrArg some (hsame _ (Option.some.inj hanswer)).1)

end Emulator.Telephony
