import Mathlib.Logic.Function.Basic
import Mathlib.Tactic

/-!
# Voice calls of the modem

The call table of `telephony/android_modem.c` with the timers of `telephony/sysdeps_qemu.c`.
The table is an array of four slots, the first `call_count` of which are in use. A slot that
is not in use any more keeps what it held, and so does the slot behind the last call when
the calls are moved up. A pointer to a call is the number of its slot.

A function returns `none` if an assertion fails in it or it follows a null pointer. The calls
to other emulators (`remote_call_dial`, `remote_call_other`, `remote_call_cancel`) only send
something to them.
-/

namespace Emulator.Telephony

open Function

inductive ACallDir where
  | outbound | inbound
deriving DecidableEq

inductive ACallState where
  | active | held | dialing | alerting | incoming | waiting
deriving DecidableEq

inductive ACallMode where
  | voice | data | fax | unknown
deriving DecidableEq

structure ACall where
  id : ℕ
  dir : ACallDir
  state : ACallState
  mode : ACallMode
  multi : ℕ
  number : List UInt8
deriving DecidableEq

/-- `serial` tells which call of the run it is and `touched` if a command has changed its state; the source has neither
of them, and nothing here reads them. -/
structure AVoiceCall where
  call : ACall
  timer : Option ℕ
  isRemote : Bool
  serial : ℕ
  touched : Bool

/-- The timers are numbered. `next` links the free ones; `running` gives the slot that a timer which is set will be
about, and the serial number of the call that set it. -/
structure SysTimers where
  next : ℕ → Option ℕ
  freeTimers : Option ℕ
  running : ℕ → Option (ℕ × ℕ)

def maxTimers : ℕ := 32

def sysInitTimers : SysTimers :=
  ⟨fun nn => if nn < maxTimers - 1 then some (nn + 1) else none, some 0, fun _ => none⟩

/-- `none` if there is no free timer. -/
def sysTimerCreate (timers : SysTimers) : Option ℕ × SysTimers :=
  match timers.freeTimers with
  | none => (none, timers)
  | some timer => (some timer,
      ⟨update timers.next timer none, timers.next timer, update timers.running timer none⟩)

def sysTimerSet (timers : SysTimers) (timer slot serial : ℕ) : SysTimers :=
  { timers with running := update timers.running timer (some (slot, serial)) }

def sysTimerDestroy (timers : SysTimers) (timer : ℕ) : SysTimers :=
  ⟨update timers.next timer timers.freeTimers, some timer, update timers.running timer none⟩

def maxCalls : ℕ := 4

/-- `made` counts the calls of the run. -/
structure AModem where
  calls : ℕ → AVoiceCall
  callCount : ℕ
  timers : SysTimers
  made : ℕ

/-- A slot of the modem before its first call. -/
def noCall : AVoiceCall := ⟨⟨0, .outbound, .active, .voice, 0, []⟩, none, false, 0, false⟩

def amodemCreate : AModem := ⟨fun _ => noCall, 0, sysInitTimers, 0⟩

/-- The calls that are in use. -/
def AModem.live (modem : AModem) : List AVoiceCall := (List.range modem.callCount).map modem.calls

/-- The loop of `amodem_alloc_call`: the first of `left` ids from `id + 1` on that no call has, and the one behind them
if there is none. -/
def freeId (modem : AModem) : (left id : ℕ) → ℕ
  | 0, id => id + 1
  | left + 1, id => if ∃ vcall ∈ modem.live, vcall.call.id = id + 1 then freeId modem left (id + 1) else id + 1

/-- The slot of the new call, `none` if there is none; its other fields are what they were. -/
def amodemAllocCall (modem : AModem) : Option (ℕ × AModem) :=
  if modem.callCount < maxCalls then
    let slot := modem.callCount
    let vcall := modem.calls slot
    let vcall := { vcall with
      call := { vcall.call with id := freeId modem modem.callCount 0 }, serial := modem.made, touched := false }
    some (slot, { modem with
      calls := update modem.calls slot vcall, callCount := modem.callCount + 1, made := modem.made + 1 })
  else none

/-- The call leaves its timer, and those behind it move up. -/
def amodemFreeCall (modem : AModem) (slot : ℕ) : Option AModem :=
  let vcall := modem.calls slot
  let timers := match vcall.timer with
    | some timer => sysTimerDestroy modem.timers timer
    | none => modem.timers
  let calls := update modem.calls slot { vcall with timer := none, isRemote := false }
  if slot < modem.callCount then
    some { modem with
      calls := fun k => if slot ≤ k ∧ k < modem.callCount - 1 then calls (k + 1) else calls k
      callCount := modem.callCount - 1
      timers := timers }
  else none

/-- The slot of the first call that is in use and has the property, from `slot` on. -/
def findSlot (modem : AModem) (p : ACall → Bool) : (left slot : ℕ) → Option ℕ
  | 0, _ => none
  | left + 1, slot => if p (modem.calls slot).call then some slot else findSlot modem p left (slot + 1)

def amodemFindCall (modem : AModem) (id : ℤ) : Option ℕ := findSlot modem (fun call => call.id = id) modem.callCount 0

def amodemFindCallByNumber (modem : AModem) (number : List UInt8) : Option ℕ :=
  findSlot modem (fun call => call.number = number) modem.callCount 0

def acallSetState (modem : AModem) (slot : ℕ) (state : ACallState) : AModem :=
  let vcall := modem.calls slot
  if state ≠ vcall.call.state then
    { modem with
      calls := update modem.calls slot
        { vcall with call := { vcall.call with state := state }, touched := true } }
  else modem

/-- `A_CALL_NUMBER_MAX_SIZE`. -/
def callNumberMaxSize : ℕ := 16

/-- `strtol` to the base 10: the number and what is left of the string. -/
def strtol (str : List UInt8) : ℤ × List UInt8 :=
  let body := str.dropWhile fun c => c = 32 ∨ (9 ≤ c.toNat ∧ c.toNat ≤ 13)
  let negative := body.head? = some 45
  let digits := if negative ∨ body.head? = some 43 then body.tail else body
  let isDigit := fun c : UInt8 => decide (48 ≤ c.toNat ∧ c.toNat ≤ 57)
  match digits.takeWhile isDigit with
  | [] => (0, str)
  | ds =>
    let v : ℤ := ds.foldl (fun v c => 10 * v + (c.toNat - 48)) 0
    (if negative then -v else v, digits.dropWhile isDigit)

def remoteNumberToPort (number : ℤ) : ℤ :=
  if number % 2 = 1 then -1
  else
    let n := (number - 5554) / 2
    if n < 0 ∨ 16 ≤ n then -1 else 5554 + n * 2

def remoteNumberStringToPort (number : List UInt8) : ℤ :=
  let (num, rest) := strtol number
  if rest ≠ [] ∨ num < -2 ^ 31 ∨ 2 ^ 31 ≤ num then -1 else remoteNumberToPort num

def isRemoteNumber (number : List UInt8) : Bool := 0 < remoteNumberStringToPort number

/-- The slot of a call and the modem, when a slot is changed. -/
def setCall (modem : AModem) (slot : ℕ) (f : AVoiceCall → AVoiceCall) : AModem :=
  { modem with calls := update modem.calls slot (f (modem.calls slot)) }

/-- The timer of the slot is left as it is. -/
def amodemAddInboundCall (modem : AModem) (number : List UInt8) : AModem :=
  match amodemAllocCall modem with
  | none => modem
  | some (slot, modem) => setCall modem slot fun vcall => { vcall with
      call := { vcall.call with
        dir := .inbound, state := .incoming, mode := .voice, multi := 0, number := number.take callNumberMaxSize }
      isRemote := isRemoteNumber number }

def amodemUpdateCall (modem : AModem) (fromNumber : List UInt8) (state : ACallState) : AModem :=
  match amodemFindCallByNumber modem fromNumber with
  | none => modem
  | some slot => acallSetState modem slot state

def amodemDisconnectCall (modem : AModem) (number : List UInt8) : Option AModem :=
  match amodemFindCallByNumber modem number with
  | none => some modem
  | some slot => amodemFreeCall modem slot

/-- `cmd` is what comes behind the letter `D`. -/
def dialNumber (cmd : List UInt8) : List UInt8 :=
  (if cmd.getLast? = some 59 then cmd.dropLast else cmd).take callNumberMaxSize

def handleDial (modem : AModem) (cmd : List UInt8) : Option AModem :=
  match amodemAllocCall modem with
  | none => some modem
  | some (slot, modem) =>
    let (timer, timers) := sysTimerCreate modem.timers
    let number := dialNumber cmd
    let modem := setCall { modem with timers := timers } slot fun vcall => { vcall with
      call := { vcall.call with dir := .outbound, state := .dialing, mode := .voice, multi := 0, number := number }
      isRemote := isRemoteNumber number
      timer := timer }
    timer.map fun timer => { modem with timers := sysTimerSet modem.timers timer slot (modem.calls slot).serial }

/-- What a sweep over the calls does with one of them, and if it stops there. -/
inductive Action where
  | keep
  | remove (stop : Bool)
  | set (state : ACallState) (stop : Bool)

/-- The loops of `handleAnswer` and `handleHangup` over the calls in use: `left` more rounds,
from the slot `nn` on. When
a call is removed, the next one is in its slot. -/
def sweep (action : ACall → Action) : (left nn : ℕ) → AModem → Option AModem
  | 0, _, modem => some modem
  | left + 1, nn, modem =>
    if nn < modem.callCount then
      match action (modem.calls nn).call with
      | .keep => sweep action left (nn + 1) modem
      | .remove stop => (amodemFreeCall modem nn).bind fun modem =>
        if stop then some modem else sweep action left nn modem
      | .set state stop =>
        let modem := acallSetState modem nn state
        if stop then some modem else sweep action left (nn + 1) modem
    else some modem

def sweepCalls (action : ACall → Action) (modem : AModem) : Option AModem := sweep action modem.callCount 0 modem

/-- `ATA`. -/
def answerAction (call : ACall) : Action :=
  if call.state = .incoming then .set .active false
  else if call.state = .active then .set .held false
  else .keep

/-- `ATH`. -/
def busyAction (call : ACall) : Action := if call.state = .incoming then .remove true else .keep

/-- The sweeps of `+CHLD` are over the voice calls. -/
def voiceAction (action : ACall → Action) (call : ACall) : Action := if call.mode = .voice then action call else .keep

/-- `+CHLD=0`. -/
def releaseHeldAction : ACall → Action := voiceAction fun call =>
  if call.state = .held ∨ call.state = .waiting ∨ call.state = .incoming then .remove false else .keep

/-- `+CHLD=1`. -/
def releaseActiveAction : ACall → Action := voiceAction fun call =>
  if call.state = .active then .remove false
  else if call.state = .held ∨ call.state = .waiting then .set .active false
  else .keep

/-- `+CHLD=2`. -/
def swapAction : ACall → Action := voiceAction fun call =>
  if call.state = .active then .set .held false
  else if call.state = .held ∨ call.state = .waiting then .set .active false
  else .keep

/-- `+CHLD=2` with an id. -/
def holdOthersAction (id : ℤ) : ACall → Action := voiceAction fun call =>
  if call.state = .active ∧ (call.id : ℤ) ≠ id then .set .held false else .keep

/-- `+CHLD=3` and `+CHLD=4`. -/
def joinAction : ACall → Action := voiceAction fun call => if call.state = .held then .set .active true else .keep

/-- `arg` is what comes behind `+CHLD=`. -/
def handleHangup (modem : AModem) (arg : List UInt8) : Option AModem :=
  match arg with
  | 48 :: _ => sweepCalls releaseHeldAction modem
  | [49] => sweepCalls releaseActiveAction modem
  | 49 :: c :: _ =>
    match amodemFindCall modem (c.toNat - 48) with
    | none => some modem
    | some slot => amodemFreeCall modem slot
  | [50] => sweepCalls swapAction modem
  | 50 :: c :: _ => sweepCalls (holdOthersAction (c.toNat - 48)) modem
  | 51 :: _ | 52 :: _ => sweepCalls joinAction modem
  | _ => some modem

/-- `dialFails` says that `remote_call_dial` cannot connect. -/
def voiceCallEvent (modem : AModem) (slot : ℕ) (dialFails : Bool) : Option AModem :=
  let vcall := modem.calls slot
  let setState := fun state => setCall modem slot fun vcall => { vcall with call := { vcall.call with state := state } }
  match vcall.call.state with
  | .dialing =>
    let modem := setState .alerting
    if vcall.isRemote then
      if dialFails then amodemFreeCall modem slot else some modem
    else vcall.timer.map fun timer => { modem with timers := sysTimerSet modem.timers timer slot vcall.serial }
  | .alerting => some (setState .active)
  | _ => none

/-- The timer expires, if it is running. -/
def timerExpires (modem : AModem) (timer : ℕ) (dialFails : Bool) : Option AModem :=
  match modem.timers.running timer with
  | none => some modem
  | some (slot, _) =>
    let timers := { modem.timers with running := update modem.timers.running timer none }
    voiceCallEvent { modem with timers := timers } slot dialFails

end Emulator.Telephony
