import Mathlib.Tactic

/-!
# The guest's cycle counter (`vl-android.c`)

`cpu_get_ticks` follows the host counter, which may go back. What it remembers of the host is the
value of its last read (`cpu_ticks_prev`), and `cpu_enable_ticks` does not write it.

* A call carries the values that `cpu_get_real_ticks` and `get_clock` return to it. There is no
  icount, and no 64-bit overflow: the counters are integers.
* `ticks_forward_iff`: the guest's counter does not go back exactly if at each first read after a
  start the host counter, or the value remembered from before the start, is not below the counter
  at the start.
-/

namespace Emulator.Timers

structure TimersState where
  cpuTicksPrev : ℤ
  cpuTicksOffset : ℤ
  cpuClockOffset : ℤ
  cpuTicksEnabled : Bool
  deriving DecidableEq

namespace TimersState

/-- `timers_state` before any call. -/
def zero : TimersState := { cpuTicksPrev := 0, cpuTicksOffset := 0, cpuClockOffset := 0, cpuTicksEnabled := false }

def cpuGetTicks (s : TimersState) (realTicks : ℤ) : TimersState × ℤ :=
  if !s.cpuTicksEnabled then (s, s.cpuTicksOffset)
  else
    -- software suspend of the host
    let offset :=
      if s.cpuTicksPrev > realTicks then s.cpuTicksOffset + (s.cpuTicksPrev - realTicks) else s.cpuTicksOffset
    ({ s with cpuTicksOffset := offset, cpuTicksPrev := realTicks }, realTicks + offset)

def cpuGetClock (s : TimersState) (clock : ℤ) : ℤ :=
  if !s.cpuTicksEnabled then s.cpuClockOffset else clock + s.cpuClockOffset

def cpuEnableTicks (s : TimersState) (realTicks clock : ℤ) : TimersState :=
  if !s.cpuTicksEnabled then
    { s with
      cpuTicksOffset := s.cpuTicksOffset - realTicks
      cpuClockOffset := s.cpuClockOffset - clock
      cpuTicksEnabled := true }
  else s

def cpuDisableTicks (s : TimersState) (realTicks clock : ℤ) : TimersState :=
  if s.cpuTicksEnabled then
    let (s, ticks) := s.cpuGetTicks realTicks
    let s := { s with cpuTicksOffset := ticks }
    let s := { s with cpuClockOffset := s.cpuGetClock clock }
    { s with cpuTicksEnabled := false }
  else s

end TimersState

/-- A call, with what the host counters return to it. -/
inductive TicksCall
  | enable (realTicks clock : ℤ)
  | disable (realTicks clock : ℤ)
  | get (realTicks : ℤ)
  deriving DecidableEq

namespace TicksCall

def step (s : TimersState) : TicksCall → TimersState
  | .enable realTicks clock => s.cpuEnableTicks realTicks clock
  | .disable realTicks clock => s.cpuDisableTicks realTicks clock
  | .get realTicks => (s.cpuGetTicks realTicks).1

/-- The value that `cpu_get_ticks` returns in the call: `cpu_disable_ticks` calls it too. -/
def value (s : TimersState) : TicksCall → Option ℤ
  | .enable _ _ => none
  | .disable realTicks _ => if s.cpuTicksEnabled then some (s.cpuGetTicks realTicks).2 else none
  | .get realTicks => some (s.cpuGetTicks realTicks).2

end TicksCall

/-- The state after the calls. -/
def runTicks (s : TimersState) (calls : List TicksCall) : TimersState := calls.foldl TicksCall.step s

/-- The values that `cpu_get_ticks` returns. -/
def guestTicks (s : TimersState) : List TicksCall → List ℤ
  | [] => []
  | call :: calls => (call.value s).toList ++ guestTicks (call.step s) calls

/-- Between a stop and a start the value stays the same. -/
def StoppedConstant (s : TimersState) (calls : List TicksCall) : Prop :=
  ∀ before after, before ++ after <+: calls → (runTicks s before).cpuTicksEnabled = false →
    (∀ call ∈ after, ∀ realTicks clock, call ≠ .enable realTicks clock) →
    ∀ v ∈ guestTicks (runTicks s before) after, v = (runTicks s before).cpuTicksOffset

/-- What happened before: whether a value has been returned, and the host counter at the start, as long as
nothing has been read since. -/
structure TicksHistory where
  seen : Bool
  startedAt : Option ℤ

namespace TicksCall

/-- A read, if ticks are enabled. -/
def reads : TicksCall → Option ℤ
  | .enable _ _ => none
  | .disable realTicks _ => some realTicks
  | .get realTicks => some realTicks

def record (s : TimersState) (h : TicksHistory) (call : TicksCall) : TicksHistory :=
  if s.cpuTicksEnabled then
    match call.reads with
    | some _ => { seen := true, startedAt := none }
    | none => h
  else
    match call with
    | .enable realTicks _ => { h with startedAt := some realTicks }
    | .disable _ _ => h
    | .get _ => { h with seen := true }

/-- The first read after a start finds a counter that is not below the one at the start, or the value remembered
from before the start is not below it. -/
def Forward (s : TimersState) (h : TicksHistory) (call : TicksCall) : Prop :=
  s.cpuTicksEnabled = true → h.seen = true → ∀ realTicks ∈ call.reads, ∀ start ∈ h.startedAt,
    start ≤ max s.cpuTicksPrev realTicks

end TicksCall

/-- Every call of the run is one that goes forward. -/
def RunForward (s : TimersState) (h : TicksHistory) : List TicksCall → Prop
  | [] => True
  | call :: calls => call.Forward s h ∧ RunForward (call.step s) (call.record s h) calls

/-- The fields, the history and the last value that was returned. -/
structure TicksOk (s : TimersState) (h : TicksHistory) (last : Option ℤ) : Prop where
  seen : h.seen = last.isSome
  stopped : s.cpuTicksEnabled = false → h.startedAt = none ∧ ∀ v ∈ last, v = s.cpuTicksOffset
  started : s.cpuTicksEnabled = true → ∀ start ∈ h.startedAt, ∀ v ∈ last, v = s.cpuTicksOffset + start
  running : s.cpuTicksEnabled = true → h.startedAt = none → last = some (s.cpuTicksPrev + s.cpuTicksOffset)

variable {s : TimersState} {h : TicksHistory} {last : Option ℤ}

theorem ticksOk_zero : TicksOk .zero { seen := false, startedAt := none } none where
  seen := rfl
  stopped := by simp
  started := by simp [TimersState.zero]
  running := by simp [TimersState.zero]

theorem cpuGetTicks_of_enabled (henabled : s.cpuTicksEnabled = true) (realTicks : ℤ) :
    s.cpuGetTicks realTicks =
      ({ s with cpuTicksOffset := s.cpuTicksOffset + max s.cpuTicksPrev realTicks - realTicks
                cpuTicksPrev := realTicks },
        s.cpuTicksOffset + max s.cpuTicksPrev realTicks) := by
  simp only [TimersState.cpuGetTicks, henabled, Bool.not_true, Bool.false_eq_true, if_false]
  split_ifs with hback
  · have hvalue : realTicks + (s.cpuTicksOffset + (s.cpuTicksPrev - realTicks)) =
      s.cpuTicksOffset + s.cpuTicksPrev := by
      ring
    rw [max_eq_left hback.le, hvalue, ← add_sub_assoc]
  · rw [max_eq_right (not_lt.1 hback), add_sub_cancel_right, add_comm realTicks]

theorem cpuGetTicks_of_stopped (hstopped : s.cpuTicksEnabled = false) (realTicks : ℤ) :
    s.cpuGetTicks realTicks = (s, s.cpuTicksOffset) := by
  simp [TimersState.cpuGetTicks, hstopped]

/-- The last value after a call. -/
def TicksCall.lastAfter (s : TimersState) (last : Option ℤ) (call : TicksCall) : Option ℤ := (call.value s).or last

theorem TicksOk.step (hok : TicksOk s h last) (call : TicksCall) :
    TicksOk (call.step s) (call.record s h) (call.lastAfter s last) := by
  cases henabled : s.cpuTicksEnabled with
  | false =>
    obtain ⟨hstart, hlast⟩ := hok.stopped henabled
    cases call with
    | enable realTicks clock =>
      simp only [TicksCall.step, TimersState.cpuEnableTicks, TicksCall.record, henabled, Bool.not_false, if_true,
        Bool.false_eq_true, if_false, TicksCall.lastAfter, TicksCall.value, Option.none_or]
      refine ⟨hok.seen, by simp, fun _ start hstart v hv => ?_, by simp⟩
      obtain rfl := Option.mem_some_iff.1 hstart
      rw [hlast v hv]
      ring
    | disable realTicks clock =>
      simp only [TicksCall.step, TimersState.cpuDisableTicks, TicksCall.record, henabled, Bool.false_eq_true, if_false,
        TicksCall.lastAfter, TicksCall.value, Option.none_or]
      exact hok
    | get realTicks =>
      simp only [TicksCall.step, cpuGetTicks_of_stopped henabled, TicksCall.record, henabled, Bool.false_eq_true,
        if_false, TicksCall.lastAfter, TicksCall.value, Option.some_or]
      exact ⟨rfl, fun _ => ⟨hstart, by simp⟩, by simp [henabled], by simp [henabled]⟩
  | true =>
    cases call with
    | enable realTicks clock =>
      simp only [TicksCall.step, TimersState.cpuEnableTicks, TicksCall.record, henabled, Bool.not_true,
        Bool.false_eq_true, if_false, if_true, TicksCall.reads, TicksCall.lastAfter, TicksCall.value, Option.none_or]
      exact hok
    | disable realTicks clock =>
      simp only [TicksCall.step, TimersState.cpuDisableTicks, cpuGetTicks_of_enabled henabled, TicksCall.record,
        henabled, if_true, TicksCall.reads, TicksCall.lastAfter, TicksCall.value, Option.some_or]
      exact ⟨rfl, by simp, by simp, by simp⟩
    | get realTicks =>
      simp only [TicksCall.step, cpuGetTicks_of_enabled henabled, TicksCall.record, henabled, if_true,
        TicksCall.reads, TicksCall.lastAfter, TicksCall.value, Option.some_or]
      refine ⟨rfl, by simp, by simp, fun _ _ => ?_⟩
      simp only [Option.some.injEq]
      ring

/-- A value is not below the last one exactly if the call goes forward. -/
theorem TicksOk.forward_iff (hok : TicksOk s h last) (call : TicksCall) :
    call.Forward s h ↔ ∀ u ∈ last, ∀ v ∈ call.value s, u ≤ v := by
  cases henabled : s.cpuTicksEnabled with
  | false =>
    obtain ⟨-, hlast⟩ := hok.stopped henabled
    refine ⟨fun _ u hu v hv => ?_, fun _ hrun => absurd hrun (by simp [henabled])⟩
    cases call with
    | enable realTicks clock => simp [TicksCall.value] at hv
    | disable realTicks clock => simp [TicksCall.value, henabled] at hv
    | get realTicks =>
      simp only [TicksCall.value, cpuGetTicks_of_stopped henabled, Option.mem_some_iff] at hv
      rw [hlast u hu, hv]
  | true =>
    have hvalue : ∀ v ∈ call.value s, ∃ realTicks ∈ call.reads,
      v = s.cpuTicksOffset + max s.cpuTicksPrev realTicks := by
      intro v hv
      cases call with
      | enable realTicks clock => simp [TicksCall.value] at hv
      | disable realTicks clock =>
        simp only [TicksCall.value, henabled, if_true, cpuGetTicks_of_enabled henabled, Option.mem_some_iff] at hv
        exact ⟨realTicks, rfl, hv.symm⟩
      | get realTicks =>
        simp only [TicksCall.value, cpuGetTicks_of_enabled henabled, Option.mem_some_iff] at hv
        exact ⟨realTicks, rfl, hv.symm⟩
    have hread : ∀ realTicks ∈ call.reads, s.cpuTicksOffset + max s.cpuTicksPrev realTicks ∈ call.value s := by
      intro realTicks hreal
      cases call with
      | enable _ _ => simp [TicksCall.reads] at hreal
      | disable t clock =>
        obtain rfl := Option.mem_some_iff.1 hreal
        simp [TicksCall.value, henabled, cpuGetTicks_of_enabled henabled]
      | get t =>
        obtain rfl := Option.mem_some_iff.1 hreal
        simp [TicksCall.value, cpuGetTicks_of_enabled henabled]
    constructor
    · intro hforward u hu v hv
      obtain ⟨realTicks, hreal, rfl⟩ := hvalue v hv
      cases hstart : h.startedAt with
      | none =>
        -- the value before is that of the last read
        have hu' := Option.some.inj ((Option.mem_def.1 hu).symm.trans (hok.running henabled hstart))
        have := le_max_left s.cpuTicksPrev realTicks
        omega
      | some start =>
        have hseen : h.seen = true := by rw [hok.seen, Option.mem_def.1 hu]; rfl
        have := hforward henabled hseen realTicks hreal start hstart
        have := hok.started henabled start hstart u hu
        omega
    · intro hle _ hseen realTicks hreal start hstart
      obtain ⟨u, hu⟩ := Option.isSome_iff_exists.1 (hok.seen.symm.trans hseen)
      have := hle u hu _ (hread realTicks hreal)
      have := hok.started henabled start hstart u hu
      omega

theorem TicksOk.run (hok : TicksOk s h last) (calls : List TicksCall) :
    (last.toList ++ guestTicks s calls).IsChain (· ≤ ·) ↔ RunForward s h calls := by
  induction calls generalizing s h last with
  | nil => cases last <;> simp [guestTicks, RunForward]
  | cons call calls ih =>
    have hstep := ih (hok.step call)
    rw [RunForward, hok.forward_iff call, ← hstep, guestTicks, TicksCall.lastAfter]
    cases hvalue : call.value s with
    | none => simp
    | some v =>
      cases last with
      | none => simp
      | some u => simp

theorem guestTicks_of_stopped (hstopped : s.cpuTicksEnabled = false) {calls : List TicksCall}
    (hcalls : ∀ call ∈ calls, ∀ realTicks clock, call ≠ .enable realTicks clock) :
    ∀ v ∈ guestTicks s calls, v = s.cpuTicksOffset := by
  induction calls with
  | nil => simp [guestTicks]
  | cons call calls ih =>
    have hrest := ih (fun c hc => hcalls c (List.mem_cons_of_mem _ hc))
    cases call with
    | enable realTicks clock => exact absurd rfl (hcalls _ (List.mem_cons_self ..) realTicks clock)
    | disable realTicks clock =>
      simpa [guestTicks, TicksCall.value, TicksCall.step, TimersState.cpuDisableTicks, hstopped] using hrest
    | get realTicks =>
      simpa [guestTicks, TicksCall.value, TicksCall.step, cpuGetTicks_of_stopped hstopped] using hrest

theorem stoppedConstant (s : TimersState) (calls : List TicksCall) : StoppedConstant s calls :=
  fun _ _ _ hstopped hafter => guestTicks_of_stopped hstopped hafter

/-- **When the guest's counter does not go back**, across stops, starts and jumps of the host's. While stopped it is
constant. -/
theorem ticks_forward_iff (calls : List TicksCall) :
    ((guestTicks .zero calls).Pairwise (· ≤ ·) ∧ StoppedConstant .zero calls) ↔
      RunForward .zero { seen := false, startedAt := none } calls := by
  have hrun := ticksOk_zero.run calls
  rw [Option.toList_none, List.nil_append, List.isChain_iff_pairwise] at hrun
  rw [hrun]
  exact and_iff_left (stoppedConstant _ _)

/-- The host's counter drops between a start and the first read after it. -/
theorem ticks_back :
    guestTicks .zero [.enable 0 0, .get 10, .disable 20 0, .enable 100 0, .get 50] = [10, 20, -30] ∧
      ¬ (guestTicks .zero [.enable 0 0, .get 10, .disable 20 0, .enable 100 0, .get 50]).Pairwise (· ≤ ·) := by
  decide

end Emulator.Timers
