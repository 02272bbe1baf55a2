import Emulator.Lib.Linked
import Emulator.Telephony.CallTable

/-!
# The timers of the calls

A call that is dialled has a timer, which points to the slot of the call.

* `TimersOk`: every timer is free or is held by one call, and a timer that is set points to
  the call that set it.
* `callTimers_run`: this holds in every run in which no call moves up while its timer is set,
  no call gets the timer that another one has left behind, and no call is forced out of the
  states of its timer.
-/

namespace Emulator.Telephony

open List Option

variable {modem modem' : AModem} {slot : ℕ} {free : List ℕ}

/-! ## Events -/

inductive CallEvent where
  | command (cmd : ModemCommand)
  | expire (timer : ℕ) (dialFails : Bool)

def CallEvent.run (modem : AModem) : CallEvent → Option AModem
  | command cmd => cmd.run modem
  | expire timer dialFails => timerExpires modem timer dialFails

/-- The states in which `voice_call_event` expects a call. -/
def ACallState.Ringing (state : ACallState) : Prop := state = .dialing ∨ state = .alerting

/-- A timer that is set points to the slot. -/
def AModem.Armed (modem : AModem) (slot : ℕ) : Prop := ∃ timer serial, modem.timers.running timer = some (slot, serial)

/-- If the command removes a call like this one, where there is one. -/
def ModemCommand.removes : ModemCommand → ACall → Bool
  | busy, call => call.state = .incoming
  | disconnect number, call => call.number = number
  | chld (48 :: _), call => call.mode = .voice ∧ (call.state = .held ∨ call.state = .waiting ∨ call.state = .incoming)
  | chld [49], call => call.mode = .voice ∧ call.state = .active
  | chld (49 :: c :: _), call => (call.id : ℤ) = c.toNat - 48
  | _, _ => false

/-- An event that does not take a call away from its timer:
* a number that is dialled is not one of another emulator, where the other side answers;
* the slot for an inbound call does not hold a timer;
* a call whose timer is set is updated to a state that the timer expects;
* no call whose timer is set is behind one that is removed. -/
def CallEvent.Fine (modem : AModem) : CallEvent → Prop
  | command (.dial cmd) => modem.callCount < maxCalls → isRemoteNumber (dialNumber cmd) = false
  | command (.inbound _) => modem.callCount < maxCalls → (modem.calls modem.callCount).timer = none
  | command (.update number state) =>
    ∀ slot, amodemFindCallByNumber modem number = some slot → modem.Armed slot → state.Ringing
  | command cmd => ∀ slot, modem.Armed slot → ∀ k < slot, cmd.removes (modem.calls k).call = false
  | expire _ _ => True

/-- All the events of a run are fine. -/
def FineRun : AModem → List CallEvent → Prop
  | _, [] => True
  | modem, event :: events => event.Fine modem ∧ ∀ modem', event.run modem = some modem' → FineRun modem' events

/-! ## The free timers -/

/-- The cells of the list of free timers. -/
def SysTimers.read (timers : SysTimers) : Option ℕ → Option (Option ℕ)
  | none => some timers.freeTimers
  | some timer => some (timers.next timer)

/-- `free` are the free timers. -/
def SysTimers.Free (timers : SysTimers) (free : List ℕ) : Prop := Linked timers.read some none free

variable {timers : SysTimers} {timer : ℕ}

theorem SysTimers.Free.destroy (h : timers.Free free) (hnew : timer ∉ free) :
    (sysTimerDestroy timers timer).Free (timer :: free) := by
  refine ⟨rfl, Linked.move h ?_ fun a ha => ?_⟩
  · change some (Function.update timers.next timer timers.freeTimers timer) = some timers.freeTimers
    rw [Function.update_self]
  · change some (Function.update timers.next timer timers.freeTimers a) = some (timers.next a)
    rw [Function.update_of_ne]
    rintro rfl
    exact hnew ha

theorem SysTimers.Free.create (h : timers.Free (timer :: free))
    (hnodup : (timer :: free).Nodup) :
    (sysTimerCreate timers).1 = some timer ∧ (sysTimerCreate timers).2.Free free ∧
      (sysTimerCreate timers).2.running = Function.update timers.running timer none := by
  have hfree : timers.freeTimers = some timer := Option.some.inj h.1
  unfold sysTimerCreate
  rw [hfree]
  refine ⟨rfl, Linked.move h.2 rfl fun a ha => ?_, rfl⟩
  change some (Function.update timers.next timer none a) = some (timers.next a)
  rw [Function.update_of_ne]
  rintro rfl
  exact (nodup_cons.1 hnodup).1 ha

theorem sysInitTimers_free : sysInitTimers.Free (List.range maxTimers) := by
  have hlink : ∀ n k, k + n = maxTimers → 0 < n →
      Linked sysInitTimers.read some (some k) (List.range' (k + 1) (n - 1)) := by
    intro n
    induction n with
    | zero => intro k _ h; omega
    | succ n ih =>
      intro k hk _
      rcases Nat.eq_zero_or_pos n with rfl | hn
      · change some (if k < maxTimers - 1 then some (k + 1) else none) = some none
        rw [if_neg (by omega)]
      · obtain ⟨m, rfl⟩ : ∃ m, n = m + 1 := ⟨n - 1, by omega⟩
        refine ⟨?_, ih (k + 1) (by omega) hn⟩
        change some (if k < maxTimers - 1 then some (k + 1) else none) = some (some (k + 1))
        rw [if_pos (by omega)]
  exact ⟨rfl, hlink maxTimers 0 (by omega) (by decide)⟩

/-! ## What holds of the timers -/

/-- The timers that the calls hold. -/
def AModem.callTimers (modem : AModem) : List ℕ := modem.live.filterMap AVoiceCall.timer

/-- The timer is set, for the call in the slot. -/
def AModem.RunsFor (modem : AModem) (timer slot : ℕ) (vcall : AVoiceCall) : Prop :=
  modem.live[slot]? = some vcall ∧ vcall.timer = some timer ∧
    modem.timers.running timer = some (slot, vcall.serial)

/-- A timer that is set is about the call that has set it, which waits for it. -/
def AModem.ArmedOk (modem : AModem) : Prop := ∀ timer slot serial, modem.timers.running timer = some (slot, serial) →
  ∃ vcall, modem.RunsFor timer slot vcall ∧ vcall.serial = serial ∧ vcall.call.dir = .outbound ∧
    vcall.call.state.Ringing ∧ vcall.isRemote = false

/-- A call that has been dialled and not been changed since waits for its timer, or is active. -/
def AModem.DialledOk (modem : AModem) : Prop := ∀ slot vcall, modem.live[slot]? = some vcall →
  vcall.call.dir = .outbound → vcall.touched = false →
    vcall.call.state = .active ∨ vcall.call.state.Ringing ∧ ∃ timer, modem.RunsFor timer slot vcall

variable {vcall : AVoiceCall}

theorem AModem.RunsFor.frame (h : modem.RunsFor timer slot vcall)
    (hl : modem'.live[slot]? = modem.live[slot]?) (hr : modem'.timers.running timer = modem.timers.running timer) :
    modem'.RunsFor timer slot vcall := ⟨hl.trans h.1, h.2.1, hr.trans h.2.2⟩

structure TimersOk (modem : AModem) (free : List ℕ) : Prop where
  count_le : modem.callCount ≤ maxCalls
  free_ok : modem.timers.Free free
  nodup : (free ++ modem.callTimers).Nodup
  length : (free ++ modem.callTimers).length = maxTimers
  serials : (modem.live.map AVoiceCall.serial).Nodup
  serial_lt : ∀ vcall ∈ modem.live, vcall.serial < modem.made
  armed : modem.ArmedOk
  dialled : modem.DialledOk

theorem amodemCreate_timersOk : TimersOk amodemCreate (List.range maxTimers) where
  count_le := by decide
  free_ok := sysInitTimers_free
  nodup := by
    have hnil : amodemCreate.callTimers = [] := rfl
    rw [hnil, append_nil]
    exact nodup_range
  length := by decide
  serials := nodup_nil
  serial_lt := fun _ h => absurd h not_mem_nil
  armed := fun _ _ _ h => absurd h.symm (some_ne_none _)
  dialled := fun _ _ h => absurd h.symm (some_ne_none _)

theorem callTimers_eq (modem : AModem) : modem.callTimers = (modem.live.map AVoiceCall.timer).filterMap id := by
  unfold AModem.callTimers
  rw [filterMap_map]
  rfl

theorem filterMap_inj {α β : Type} {f : α → Option β} {l : List α} (h : (l.filterMap f).Nodup)
    {i j : ℕ} {a b : α} {c : β}
    (hi : l[i]? = some a) (hj : l[j]? = some b) (ha : f a = some c) (hb : f b = some c) : i = j := by
  have hpw := pairwise_iff_getElem.1 (pairwise_filterMap.1 h)
  obtain ⟨hi', hai⟩ := List.getElem?_eq_some_iff.1 hi
  obtain ⟨hj', hbj⟩ := List.getElem?_eq_some_iff.1 hj
  rcases Nat.lt_trichotomy i j with hlt | heq | hgt
  · exact absurd rfl (hpw i j hi' hj' hlt c (by rw [hai]; exact ha) c (by rw [hbj]; exact hb))
  · exact heq
  · exact absurd rfl (hpw j i hj' hi' hgt c (by rw [hbj]; exact hb) c (by rw [hai]; exact ha))

/-- A call in use holds its timer alone. -/
theorem TimersOk.timer_inj (h : TimersOk modem free) {i j timer : ℕ} {vcall vcall' : AVoiceCall}
    (hi : modem.live[i]? = some vcall) (hj : modem.live[j]? = some vcall') (ht : vcall.timer = some timer)
    (ht' : vcall'.timer = some timer) : i = j :=
  filterMap_inj (nodup_append.1 h.nodup).2.1 hi hj ht ht'

/-! ## A call changes its state -/

theorem withState_timer (vcall : AVoiceCall) (state : ACallState) :
    (vcall.withState state).timer = vcall.timer ∧ (vcall.withState state).serial = vcall.serial ∧
      (vcall.withState state).call.dir = vcall.call.dir ∧ (vcall.withState state).isRemote = vcall.isRemote ∧
      (vcall.withState state).call.state = state := by
  unfold AVoiceCall.withState
  split_ifs with h
  · exact ⟨rfl, rfl, rfl, rfl, rfl⟩
  · exact ⟨rfl, rfl, rfl, rfl, (not_not.1 h).symm⟩

theorem set_map_eq {α β : Type} {f : α → β} {l : List α} {i : ℕ} {a b : α} (hget : l[i]? = some a) (hf : f b = f a) :
    (l.set i b).map f = l.map f := by
  refine ext_getElem? fun k => ?_
  rw [List.getElem?_map, List.getElem?_map, List.getElem?_set]
  split_ifs with h1 h2
  · subst h1
    rw [hget, map_some, map_some, hf]
  · subst h1
    rw [List.getElem?_eq_none (by omega)] at hget
    exact absurd hget.symm (some_ne_none _)
  · rfl

/-- A call is changed: it keeps its timer, which may stop. -/
theorem TimersOk.set (h : TimersOk modem free) {vcall vcall' : AVoiceCall} (hget : modem.live[slot]? = some vcall)
    (hlive : modem'.live = modem.live.set slot vcall') (htimer : vcall'.timer = vcall.timer)
    (hserial : vcall'.serial = vcall.serial) (hmade : modem'.made = modem.made) (hfree : modem'.timers.Free free)
    (hrunning : ∀ timer, modem'.timers.running timer = modem.timers.running timer ∨
      vcall.timer = some timer ∧ modem'.timers.running timer = none)
    (harmed : ∀ timer, modem.RunsFor timer slot vcall → modem'.RunsFor timer slot vcall' →
      vcall'.call.dir = .outbound ∧ vcall'.call.state.Ringing ∧ vcall'.isRemote = false)
    (hdialled : vcall'.call.dir = .outbound → vcall'.touched = false →
      vcall'.call.state = .active ∨ vcall'.call.state.Ringing ∧ ∃ timer, modem'.RunsFor timer slot vcall') :
    TimersOk modem' free := by
  have htimers : modem'.callTimers = modem.callTimers := by
    rw [callTimers_eq, callTimers_eq, hlive, set_map_eq hget htimer]
  have hserials : modem'.live.map AVoiceCall.serial = modem.live.map AVoiceCall.serial := by
    rw [hlive, set_map_eq hget hserial]
  have hself : modem'.live[slot]? = some vcall' := by
    rw [hlive, List.getElem?_set_self (List.getElem?_eq_some_iff.1 hget).1]
  have hother : ∀ k, slot ≠ k → modem'.live[k]? = modem.live[k]? := by
    intro k hk
    rw [hlive, List.getElem?_set_ne hk]
  refine ⟨?_, hfree, by rw [htimers]; exact h.nodup, by rw [htimers]; exact h.length, by rw [hserials]; exact h.serials,
    fun v hv => ?_, fun timer k serial hrun => ?_, fun k v hv hvd hvt => ?_⟩
  · rw [← live_length, hlive, length_set, live_length]
    exact h.count_le
  · have hmem : v.serial ∈ modem.live.map AVoiceCall.serial := hserials ▸ List.mem_map_of_mem hv
    obtain ⟨v₀, hv₀, he⟩ := List.mem_map.1 hmem
    rw [← he, hmade]
    exact h.serial_lt v₀ hv₀
  · have hrun' : modem'.timers.running timer = modem.timers.running timer := by
      rcases hrunning timer with he | ⟨-, he⟩
      · exact he
      · exact absurd (hrun.symm.trans he) (some_ne_none _)
    obtain ⟨v, hruns, hvs, hv⟩ := h.armed timer k serial (hrun'.symm.trans hrun)
    by_cases hk : slot = k
    · subst hk
      obtain rfl : v = vcall := Option.some.inj (hruns.1.symm.trans hget)
      have hruns' : modem'.RunsFor timer slot vcall' :=
        ⟨hself, htimer.trans hruns.2.1, by rw [hrun', hruns.2.2, hserial]⟩
      exact ⟨vcall', hruns', hserial.trans hvs, harmed timer hruns hruns'⟩
    · exact ⟨v, hruns.frame (hother k hk) hrun', hvs, hv⟩
  · by_cases hk : slot = k
    · subst hk
      obtain rfl := Option.some.inj (hself.symm.trans hv)
      exact hdialled hvd hvt
    · have hv' := (hother k hk).symm.trans hv
      rcases h.dialled k v hv' hvd hvt with hact | ⟨hringing, timer, hruns⟩
      · exact .inl hact
      · refine .inr ⟨hringing, timer, hruns.frame (hother k hk) ?_⟩
        rcases hrunning timer with he | ⟨he, -⟩
        · exact he
        · exact absurd (h.timer_inj hget hv' he hruns.2.1) hk

theorem live_setState (hget : modem.live[slot]? = some vcall) (state : ACallState) :
    (acallSetState modem slot state).live = modem.live.set slot (vcall.withState state) := by
  rw [live_getElem?] at hget
  split_ifs at hget with hlt
  rw [acallSetState_eq, live_setCall _ hlt, Option.some.inj hget]

theorem acallSetState_frame (modem : AModem) (slot : ℕ) (state : ACallState) :
    (acallSetState modem slot state).timers = modem.timers ∧ (acallSetState modem slot state).made = modem.made := by
  rw [acallSetState_eq]
  exact ⟨rfl, rfl⟩

/-- A command sets the state of a call: one whose timer is set stays in a state that the timer expects. -/
theorem TimersOk.setState (h : TimersOk modem free) (hget : modem.live[slot]? = some vcall)
    {state : ACallState} (hring : modem.Armed slot → state.Ringing) :
    TimersOk (acallSetState modem slot state) free := by
  have hlive := live_setState hget state
  obtain ⟨htimers, hmade⟩ := acallSetState_frame modem slot state
  obtain ⟨htimer, hserial, hdir, hremote, hstate⟩ := withState_timer vcall state
  refine h.set hget hlive htimer hserial hmade (by rw [htimers]; exact h.free_ok)
    (fun timer => .inl (by rw [htimers])) (fun timer hruns _ => ?_) fun hvd hvt => ?_
  · obtain ⟨v, hv, -, hvd, -, hvrem⟩ := h.armed timer slot _ hruns.2.2
    obtain rfl : v = vcall := Option.some.inj (hv.1.symm.trans hget)
    refine ⟨by rw [hdir, hvd], ?_, by rw [hremote, hvrem]⟩
    rw [hstate]
    exact hring ⟨timer, _, hruns.2.2⟩
  · -- the state is the one it was
    have hsame : vcall.withState state = vcall := by
      unfold AVoiceCall.withState at hvt ⊢
      split_ifs at hvt ⊢
      rfl
    rw [hsame] at hvd hvt hlive ⊢
    rcases h.dialled slot vcall hget hvd hvt with hact | ⟨hringing, timer, hruns⟩
    · exact .inl hact
    · refine .inr ⟨hringing, timer, hruns.frame ?_ (by rw [htimers])⟩
      rw [hlive, List.getElem?_set_self (List.getElem?_eq_some_iff.1 hget).1, hget]

/-! ## A call is removed -/

/-- The timers after a call with this timer has been removed. -/
def timersWithout (timers : SysTimers) : Option ℕ → SysTimers
  | some timer => sysTimerDestroy timers timer
  | none => timers

theorem freeCall_frame (hget : modem.live[slot]? = some vcall) :
    ∃ modem', amodemFreeCall modem slot = some modem' ∧ modem'.live = modem.live.eraseIdx slot ∧
      modem'.made = modem.made ∧ modem'.timers = timersWithout modem.timers vcall.timer := by
  rw [live_getElem?] at hget
  split_ifs at hget with hlt
  obtain ⟨modem', h1, h2, h3⟩ := live_freeCall hlt
  refine ⟨modem', h1, h2, h3, ?_⟩
  unfold amodemFreeCall at h1
  simp only [if_pos hlt] at h1
  rw [← Option.some.inj h1, ← Option.some.inj hget]
  rfl

theorem SysTimers.Free.without (h : timers.Free free) {timer : Option ℕ}
    (hnodup : (timer.toList ++ free).Nodup) : (timersWithout timers timer).Free (timer.toList ++ free) := by
  cases timer with
  | none => exact h
  | some timer => exact h.destroy (nodup_cons.1 hnodup).1

theorem running_without {timer : Option ℕ} {t : ℕ} {target : ℕ × ℕ}
    (h : (timersWithout timers timer).running t = some target) : timer ≠ some t ∧ timers.running t = some target := by
  cases timer with
  | none => exact ⟨(some_ne_none _).symm, h⟩
  | some timer =>
    change Function.update timers.running timer none t = _ at h
    by_cases ht : t = timer
    · rw [ht, Function.update_self] at h
      exact absurd h.symm (some_ne_none _)
    · rw [Function.update_of_ne ht] at h
      exact ⟨fun he => ht (Option.some.inj he).symm, h⟩

theorem running_without_of_ne {timer : Option ℕ} {t : ℕ} (h : timer ≠ some t) :
    (timersWithout timers timer).running t = timers.running t := by
  cases timer with
  | none => rfl
  | some timer => exact Function.update_of_ne (fun he => h (by rw [he])) _ _

/-- The timers are those of the call and of the others. -/
theorem callTimers_perm (hget : modem.live[slot]? = some vcall) :
    modem.callTimers.Perm (vcall.timer.toList ++ (modem.live.eraseIdx slot).filterMap AVoiceCall.timer) := by
  obtain ⟨hlt, rfl⟩ := List.getElem?_eq_some_iff.1 hget
  have hperm := (getElem_cons_eraseIdx_perm hlt).symm.filterMap AVoiceCall.timer
  rw [filterMap_cons] at hperm
  unfold AModem.callTimers
  cases htimer : modem.live[slot].timer with
  | none =>
    rw [htimer] at hperm
    exact hperm
  | some timer =>
    rw [htimer] at hperm
    exact hperm

/-- **A call is removed** when no call behind it waits for its timer. -/
theorem TimersOk.remove (h : TimersOk modem free) {vcall : AVoiceCall} (hget : modem.live[slot]? = some vcall)
    (hlast : ∀ k, modem.Armed k → k ≤ slot) :
    ∃ modem', amodemFreeCall modem slot = some modem' ∧ TimersOk modem' (vcall.timer.toList ++ free) ∧
      modem'.live = modem.live.eraseIdx slot ∧ ∀ k, modem'.Armed k → k < slot := by
  obtain ⟨modem', hfree, hlive, hmade, htimers⟩ := freeCall_frame hget
  have hsub : modem'.live.Sublist modem.live := hlive ▸ eraseIdx_sublist ..
  have hperm : (vcall.timer.toList ++ free ++ modem'.callTimers).Perm (free ++ modem.callTimers) := by
    have hrest : modem'.callTimers = (modem.live.eraseIdx slot).filterMap AVoiceCall.timer := by
      unfold AModem.callTimers
      rw [hlive]
    rw [hrest]
    refine .trans ?_ ((callTimers_perm hget).symm.append_left free)
    rw [← append_assoc]
    exact perm_append_comm.append_right _
  have hbefore : ∀ k, k < slot → modem'.live[k]? = modem.live[k]? := by
    intro k hk
    rw [hlive, List.getElem?_eraseIdx_of_lt hk]
  have harmed : ∀ timer k serial, modem'.timers.running timer = some (k, serial) →
      k < slot ∧ vcall.timer ≠ some timer ∧ modem.timers.running timer = some (k, serial) := by
    intro timer k serial hrun
    rw [htimers] at hrun
    obtain ⟨hne, hrun'⟩ := running_without hrun
    refine ⟨lt_of_le_of_ne (hlast k ⟨timer, serial, hrun'⟩) ?_, hne, hrun'⟩
    rintro rfl
    obtain ⟨v, hruns, -⟩ := h.armed timer k serial hrun'
    obtain rfl : v = vcall := Option.some.inj (hruns.1.symm.trans hget)
    exact hne hruns.2.1
  refine ⟨modem', hfree, ⟨?_, ?_, ?_, ?_, ?_, fun v hv => ?_, ?_, ?_⟩, hlive, ?_⟩
  · rw [← live_length]
    exact hsub.length_le.trans ((live_length modem).le.trans h.count_le)
  · rw [htimers]
    exact h.free_ok.without (List.Nodup.of_append_left (hperm.nodup_iff.2 h.nodup))
  · exact hperm.nodup_iff.2 h.nodup
  · rw [hperm.length_eq]
    exact h.length
  · exact h.serials.sublist (hsub.map _)
  · rw [hmade]
    exact h.serial_lt v (hsub.mem hv)
  · intro timer k serial hrun
    obtain ⟨hk, hne, hrun'⟩ := harmed timer k serial hrun
    obtain ⟨v, hruns, hv⟩ := h.armed timer k serial hrun'
    exact ⟨v, hruns.frame (hbefore k hk) (hrun.trans hrun'.symm), hv⟩
  · intro k v hv hvd hvt
    rcases Nat.lt_or_ge k slot with hk | hk
    · have hv' := (hbefore k hk).symm.trans hv
      rcases h.dialled k v hv' hvd hvt with hact | ⟨hringing, timer, hruns⟩
      · exact .inl hact
      · refine .inr ⟨hringing, timer, hruns.frame (hbefore k hk) ?_⟩
        rw [htimers, running_without_of_ne]
        intro he
        exact absurd (h.timer_inj hget hv' he hruns.2.1) (by omega)
    · -- it was behind the call, and does not wait for its timer
      rw [hlive, List.getElem?_eraseIdx_of_ge hk] at hv
      rcases h.dialled (k + 1) v hv hvd hvt with hact | ⟨-, timer, hruns⟩
      · exact .inl hact
      · exact absurd (hlast (k + 1) ⟨timer, v.serial, hruns.2.2⟩) (by omega)
  · rintro k ⟨timer, serial, hrun⟩
    exact (harmed timer k serial hrun).1

/-! ## Sweeps -/

/-- A sweep leaves the calls alone that wait for their timers. -/
def Action.Quiet (action : ACall → Action) : Prop := ∀ call, call.state.Ringing → action call = .keep

def Action.isRemove : Action → Bool
  | remove _ => true
  | _ => false

theorem TimersOk.not_armed (h : TimersOk modem free) (hget : modem.live[slot]? = some vcall)
    (hring : ¬ vcall.call.state.Ringing) : ¬ modem.Armed slot := by
  rintro ⟨timer, serial, hrun⟩
  obtain ⟨v, hruns, -, -, hv, -⟩ := h.armed timer slot serial hrun
  obtain rfl : v = vcall := Option.some.inj (hruns.1.symm.trans hget)
  exact hring hv

variable {action : ACall → Action}

/-- **Sweeps**: from the slot `nn` on, no call that waits for its timer is behind one that is removed. -/
theorem TimersOk.sweep (hquiet : Action.Quiet action) {left nn : ℕ} (h : TimersOk modem free)
    (hfine : ∀ slot, modem.Armed slot → ∀ k, nn ≤ k → k < slot → (action (modem.calls k).call).isRemove = false)
    (hrun : sweep action left nn modem = some modem') : ∃ free', TimersOk modem' free' := by
  induction left generalizing modem nn free with
  | zero =>
    obtain rfl := Option.some.inj hrun
    exact ⟨free, h⟩
  | succ left ih =>
    unfold Telephony.sweep at hrun
    split_ifs at hrun with hlt
    · have hget : modem.live[nn]? = some (modem.calls nn) := by
        rw [live_getElem?, if_pos hlt]
      have hring : ∀ a, action (modem.calls nn).call = a → a ≠ .keep → ¬ (modem.calls nn).call.state.Ringing := by
        intro a ha hne hr
        exact hne (ha.symm.trans (hquiet _ hr))
      rcases haction : action (modem.calls nn).call with _ | stop | ⟨state, stop⟩
      · rw [haction] at hrun
        exact ih h (fun slot hslot k hk => hfine slot hslot k (by omega)) hrun
      · -- nothing behind the slot waits
        have hlast : ∀ k, modem.Armed k → k ≤ nn := by
          intro k hk
          by_contra hgt
          have := hfine k hk nn (Nat.le_refl _) (by omega)
          rw [haction] at this
          exact Bool.noConfusion this
        obtain ⟨modem₁, h1, h2, -, h4⟩ := h.remove hget hlast
        rw [haction] at hrun
        simp only [h1, bind_some] at hrun
        split_ifs at hrun
        · obtain rfl := Option.some.inj hrun
          exact ⟨_, h2⟩
        · refine ih h2 (fun slot hslot k hk hk' => ?_) hrun
          exact absurd (h4 slot hslot) (by omega)
      · have hnot := h.not_armed hget (hring _ haction (by simp))
        have h1 : TimersOk (acallSetState modem nn state) free := h.setState hget fun ha => absurd ha hnot
        rw [haction] at hrun
        simp only at hrun
        split_ifs at hrun
        · obtain rfl := Option.some.inj hrun
          exact ⟨_, h1⟩
        · refine ih h1 (fun slot hslot k hk hk' => ?_) hrun
          have hcall : (acallSetState modem nn state).calls k = modem.calls k := by
            rw [acallSetState_eq]
            exact Function.update_of_ne (by omega) _ _
          have harmed : modem.Armed slot := by
            unfold AModem.Armed at hslot ⊢
            rwa [(acallSetState_frame modem nn state).1] at hslot
          rw [hcall]
          exact hfine slot harmed k (by omega) hk'
    · obtain rfl := Option.some.inj hrun
      exact ⟨free, h⟩

/-- The commands that go over the calls. -/
theorem TimersOk.sweepCalls {action : ACall → Action} (hquiet : Action.Quiet action) (h : TimersOk modem free)
    (hfine : ∀ slot, modem.Armed slot → ∀ k < slot, (action (modem.calls k).call).isRemove = false) :
    ∃ modem' free', sweepCalls action modem = some modem' ∧ TimersOk modem' free' := by
  obtain ⟨modem', hrun, -⟩ := sweepCalls_callList action modem
  obtain ⟨free', h'⟩ := h.sweep hquiet (fun slot hslot k _ hk => hfine slot hslot k hk) hrun
  exact ⟨modem', free', hrun, h'⟩

/-- The commands that remove the call they find. -/
theorem TimersOk.removeFound {p : ACall → Bool} (h : TimersOk modem free)
    (hfine : ∀ slot, modem.Armed slot → ∀ k < slot, p (modem.calls k).call = false) :
    ∃ modem' free', (match findSlot modem p modem.callCount 0 with
      | none => some modem
      | some slot => amodemFreeCall modem slot) = some modem' ∧ TimersOk modem' free' := by
  rcases hfind : findSlot modem p modem.callCount 0 with _ | slot
  · exact ⟨modem, free, rfl, h⟩
  · have hlt := findSlot_lt hfind
    have hget : modem.live[slot]? = some (modem.calls slot) := by
      rw [live_getElem?, if_pos hlt]
    have hp : p (modem.calls slot).call = true := by
      rw [findSlot_callList, List.findIdx?_eq_some_iff_getElem] at hfind
      obtain ⟨hlen, hpos, -⟩ := hfind
      simpa [AModem.callList, AModem.live] using hpos
    obtain ⟨modem', h1, h2, -⟩ := h.remove hget fun k hk => by
      by_contra hgt
      have := hfine k hk slot (by omega)
      rw [hp] at this
      exact Bool.noConfusion this
    exact ⟨modem', _, h1, h2⟩

theorem answer_quiet : Action.Quiet answerAction := by
  rintro call (h | h) <;> simp [answerAction, h]

theorem busy_quiet : Action.Quiet busyAction := by
  rintro call (h | h) <;> simp [busyAction, h]

theorem voice_quiet (h : Action.Quiet action) : Action.Quiet (voiceAction action) := by
  intro call hring
  unfold voiceAction
  split_ifs
  · exact h call hring
  · rfl

theorem releaseHeld_quiet : Action.Quiet releaseHeldAction := by
  refine voice_quiet ?_
  rintro call (h | h) <;> simp [h]

theorem releaseActive_quiet : Action.Quiet releaseActiveAction := by
  refine voice_quiet ?_
  rintro call (h | h) <;> simp [h]

theorem swap_quiet : Action.Quiet swapAction := by
  refine voice_quiet ?_
  rintro call (h | h) <;> simp [h]

theorem holdOthers_quiet (id : ℤ) : Action.Quiet (holdOthersAction id) := by
  refine voice_quiet ?_
  rintro call (h | h) <;> simp [h]

theorem join_quiet : Action.Quiet joinAction := by
  refine voice_quiet ?_
  rintro call (h | h) <;> simp [h]

theorem releaseHeld_removes (call : ACall) (arg : List UInt8) :
    (releaseHeldAction call).isRemove = (ModemCommand.chld (48 :: arg)).removes call := by
  simp only [releaseHeldAction, voiceAction, ModemCommand.removes]
  split_ifs <;> simp_all [Action.isRemove]

theorem releaseActive_removes (call : ACall) :
    (releaseActiveAction call).isRemove = (ModemCommand.chld [49]).removes call := by
  simp only [releaseActiveAction, voiceAction, ModemCommand.removes]
  split_ifs <;> simp_all [Action.isRemove]

theorem busy_removes (call : ACall) : (busyAction call).isRemove = ModemCommand.busy.removes call := by
  simp only [busyAction, ModemCommand.removes]
  split_ifs <;> simp_all [Action.isRemove]

theorem answer_keeps (call : ACall) : (answerAction call).isRemove = false := by
  simp only [answerAction]
  split_ifs <;> rfl

theorem swap_keeps (call : ACall) : (swapAction call).isRemove = false := by
  simp only [swapAction, voiceAction]
  split_ifs <;> rfl

theorem holdOthers_keeps (id : ℤ) (call : ACall) : (holdOthersAction id call).isRemove = false := by
  simp only [holdOthersAction, voiceAction]
  split_ifs <;> rfl

theorem join_keeps (call : ACall) : (joinAction call).isRemove = false := by
  simp only [joinAction, voiceAction]
  split_ifs <;> rfl

/-! ## A call is added -/

/-- A call is put behind the others. The free timers are `free` then. -/
theorem TimersOk.append (h : TimersOk modem free) {free' : List ℕ} (hlt : modem.callCount < maxCalls)
    (hlive : modem'.live = modem.live ++ [vcall]) (hmade : modem'.made = modem.made + 1)
    (hserial : vcall.serial = modem.made) (hfree : modem'.timers.Free free')
    (hperm : (free' ++ vcall.timer.toList).Perm free) (harmed : modem'.ArmedOk) (hdialled : modem'.DialledOk) :
    TimersOk modem' free' := by
  have htimers : (free' ++ modem'.callTimers).Perm (free ++ modem.callTimers) := by
    have hnew : modem'.callTimers = modem.callTimers ++ vcall.timer.toList := by
      unfold AModem.callTimers
      rw [hlive, filterMap_append]
      cases htimer : vcall.timer with
      | none => simp [htimer]
      | some timer => simp [htimer]
    rw [hnew]
    refine .trans ?_ (hperm.append_right _)
    rw [append_assoc]
    exact perm_append_comm.append_left _
  refine ⟨?_, hfree, htimers.nodup_iff.2 h.nodup, by rw [htimers.length_eq, h.length], ?_, fun v hv => ?_,
    harmed, hdialled⟩
  · rw [← live_length, hlive, length_append, live_length]
    exact hlt
  · rw [hlive, map_append, map_singleton, hserial]
    refine nodup_append_comm.1 (nodup_cons.2 ⟨fun hmem => ?_, h.serials⟩)
    obtain ⟨v, hv, he⟩ := List.mem_map.1 hmem
    exact absurd (h.serial_lt v hv) (by omega)
  · rw [hlive] at hv
    rw [hmade]
    rcases mem_append.1 hv with hv | hv
    · exact Nat.lt_succ_of_lt (h.serial_lt v hv)
    · rw [mem_singleton.1 hv, hserial]
      exact Nat.lt_succ_self _

theorem live_append_old (hlive : modem'.live = modem.live ++ [vcall]) {k : ℕ} {v : AVoiceCall}
    (hv : modem.live[k]? = some v) : modem'.live[k]? = some v := by
  rw [hlive, List.getElem?_append_left (List.getElem?_eq_some_iff.1 hv).1]
  exact hv

theorem live_append_cases (hlive : modem'.live = modem.live ++ [vcall]) {k : ℕ} {v : AVoiceCall}
    (hv : modem'.live[k]? = some v) : modem.live[k]? = some v ∨ k = modem.callCount ∧ v = vcall := by
  rw [hlive] at hv
  rcases Nat.lt_or_ge k modem.live.length with hk | hk
  · rw [List.getElem?_append_left hk] at hv
    exact .inl hv
  · rw [List.getElem?_append_right hk] at hv
    obtain ⟨hk', hv'⟩ := List.getElem?_eq_some_iff.1 hv
    rw [length_singleton] at hk'
    rw [live_length] at hk hk'
    refine .inr ⟨by omega, ?_⟩
    simpa using hv'.symm

theorem TimersOk.inbound (h : TimersOk modem free) (number : List UInt8)
    (hfine : modem.callCount < maxCalls → (modem.calls modem.callCount).timer = none) :
    TimersOk (amodemAddInboundCall modem number) free := by
  by_cases hlt : modem.callCount < maxCalls
  · obtain ⟨hlive, hmade, htimers⟩ := inbound_live hlt number
    have hnone : (inboundCall modem number).timer = none := hfine hlt
    refine h.append hlt hlive hmade rfl (by rw [htimers]; exact h.free_ok) (by rw [hnone]; simp) ?_ ?_
    · intro timer k serial hrun
      rw [htimers] at hrun
      obtain ⟨v, hruns, hv⟩ := h.armed timer k serial hrun
      exact ⟨v, hruns.frame ((live_append_old hlive hruns.1).trans hruns.1.symm) (by rw [htimers]), hv⟩
    · intro k v hv hvd hvt
      rcases live_append_cases hlive hv with hv' | ⟨-, rfl⟩
      · rcases h.dialled k v hv' hvd hvt with hact | ⟨hringing, timer, hruns⟩
        · exact .inl hact
        · exact .inr ⟨hringing, timer, hruns.frame (hv.trans hv'.symm) (by rw [htimers])⟩
      · exact absurd hvd (by simp [inboundCall])
  · rw [inbound_full hlt]
    exact h

/-- There is a timer for every call. -/
theorem TimersOk.free_cons (h : TimersOk modem free) : ∃ timer rest, free = timer :: rest := by
  have hle : modem.callTimers.length ≤ maxCalls := by
    refine (length_filterMap_le _ _).trans ?_
    rw [live_length]
    exact h.count_le
  have hlen := h.length
  rw [length_append] at hlen
  cases free with
  | nil =>
    unfold maxTimers maxCalls at *
    rw [length_nil] at hlen
    omega
  | cons timer rest => exact ⟨timer, rest, rfl⟩

theorem TimersOk.dial (h : TimersOk modem free) (cmd : List UInt8)
    (hfine : modem.callCount < maxCalls → isRemoteNumber (dialNumber cmd) = false) :
    ∃ modem' free', handleDial modem cmd = some modem' ∧ TimersOk modem' free' := by
  by_cases hlt : modem.callCount < maxCalls
  · obtain ⟨timer, rest, rfl⟩ := h.free_cons
    have hnodup := (nodup_append.1 h.nodup).1
    obtain ⟨htimer, hfree, hrunning⟩ := h.free_ok.create hnodup
    obtain ⟨modem', hdial, hlive, hmade, htimers⟩ := dial_live hlt htimer cmd
    have hself : modem'.RunsFor timer modem.callCount (dialledCall modem cmd timer) := by
      refine ⟨?_, rfl, ?_⟩
      · rw [hlive, List.getElem?_append_right (by rw [live_length]), live_length, Nat.sub_self]
        rfl
      · rw [htimers]
        exact Function.update_self ..
    have hother : ∀ t, t ≠ timer → modem'.timers.running t = modem.timers.running t := by
      intro t ht
      rw [htimers]
      change Function.update _ timer _ t = _
      rw [Function.update_of_ne ht, hrunning, Function.update_of_ne ht]
    refine ⟨modem', rest, hdial, h.append hlt hlive hmade rfl ?_ ?_ ?_ ?_⟩
    · rw [htimers]
      exact hfree
    · exact perm_append_singleton timer rest
    · intro t k serial hrun
      by_cases ht : t = timer
      · subst ht
        have hrun' := hself.2.2
        rw [hrun'] at hrun
        obtain ⟨rfl, rfl⟩ := Prod.mk.inj (Option.some.inj hrun)
        exact ⟨_, hself, rfl, rfl, .inl rfl, hfine hlt⟩
      · rw [hother t ht] at hrun
        obtain ⟨v, hruns, hv⟩ := h.armed t k serial hrun
        exact ⟨v, hruns.frame ((live_append_old hlive hruns.1).trans hruns.1.symm) (hother t ht), hv⟩
    · intro k v hv hvd hvt
      rcases live_append_cases hlive hv with hv' | ⟨rfl, rfl⟩
      · rcases h.dialled k v hv' hvd hvt with hact | ⟨hringing, t, hruns⟩
        · exact .inl hact
        · refine .inr ⟨hringing, t, hruns.frame (hv.trans hv'.symm) (hother t ?_)⟩
          -- the timer was a free one
          rintro rfl
          have hmem : t ∈ modem.callTimers := mem_filterMap.2 ⟨v, mem_of_getElem? hv', hruns.2.1⟩
          exact (nodup_append.1 h.nodup).2.2 t mem_cons_self t hmem rfl
      · exact .inr ⟨.inl rfl, timer, hself⟩
  · exact ⟨modem, free, dial_full hlt cmd, h⟩

/-! ## A timer expires -/

/-- The call with the state that its timer gives it. -/
def AVoiceCall.goTo (vcall : AVoiceCall) (state : ACallState) : AVoiceCall :=
  { vcall with call := { vcall.call with state := state } }

/-- What the call's own timer does when it expires. -/
def AModem.Expires (modem modem' : AModem) (slot : ℕ) (vcall : AVoiceCall) : Prop :=
  (vcall.call.state = .dialing ∧ modem'.live = modem.live.set slot (vcall.goTo .alerting) ∧
    modem'.timers = modem.timers) ∨
  (vcall.call.state = .alerting ∧ modem'.live = modem.live.set slot (vcall.goTo .active) ∧
    ∃ timer, vcall.timer = some timer ∧
      modem'.timers = { modem.timers with running := Function.update modem.timers.running timer none })

theorem expires_of_runs (hruns : modem.RunsFor timer slot vcall)
    (hring : vcall.call.state.Ringing) (hremote : vcall.isRemote = false) (dialFails : Bool) :
    ∃ modem', timerExpires modem timer dialFails = some modem' ∧ modem'.made = modem.made ∧
      modem.Expires modem' slot vcall := by
  obtain ⟨hget, htimer, hrun⟩ := hruns
  rw [live_getElem?] at hget
  split_ifs at hget with hlt
  obtain rfl := Option.some.inj hget
  have hlive : ∀ timers state, (setCall { modem with timers := timers } slot fun vcall => vcall.goTo state).live =
      modem.live.set slot ((modem.calls slot).goTo state) := by
    intro timers state
    have hlt' : slot < ({ modem with timers := timers } : AModem).callCount := hlt
    exact live_setCall _ hlt'
  unfold timerExpires
  rw [hrun]
  unfold voiceCallEvent
  rcases hring with hstate | hstate
  · simp only [hstate, hremote, htimer, map_some]
    refine ⟨_, rfl, rfl, .inl ⟨hstate, hlive _ _, ?_⟩⟩
    simp only [sysTimerSet, setCall, Function.update_idem]
    rw [← hrun, Function.update_eq_self]
  · simp only [hstate]
    exact ⟨_, rfl, rfl, .inr ⟨hstate, hlive _ _, timer, htimer, rfl⟩⟩

/-- **A timer that expires** is about its own call. -/
theorem TimersOk.expires (h : TimersOk modem free) (hruns : modem.RunsFor timer slot vcall)
    (hmade : modem'.made = modem.made) (hexp : modem.Expires modem' slot vcall) : TimersOk modem' free := by
  obtain ⟨v, hv, -, hdir, -, hremote⟩ := h.armed timer slot _ hruns.2.2
  obtain rfl : v = vcall := Option.some.inj (hv.1.symm.trans hruns.1)
  rcases hexp with ⟨-, hlive, htimers⟩ | ⟨-, hlive, t, ht, htimers⟩
  · refine h.set hruns.1 hlive rfl rfl hmade (by rw [htimers]; exact h.free_ok) (fun t => .inl (by rw [htimers]))
      (fun t _ _ => ⟨hdir, .inr rfl, hremote⟩) fun _ _ => .inr ⟨.inr rfl, timer, ?_, hruns.2.1,
        by rw [htimers, hruns.2.2]; rfl⟩
    rw [hlive, List.getElem?_set_self (List.getElem?_eq_some_iff.1 hruns.1).1]
  · refine h.set hruns.1 hlive rfl rfl hmade (by rw [htimers]; exact h.free_ok) (fun t' => ?_) (fun t' hr hr' => ?_)
      fun _ _ => .inl rfl
    · rw [htimers]
      by_cases he : t' = t
      · subst he
        exact .inr ⟨ht, Function.update_self ..⟩
      · exact .inl (Function.update_of_ne he ..)
    · -- its timer has stopped
      obtain rfl : t' = t := Option.some.inj (hr.2.1.symm.trans ht)
      have hnone : modem'.timers.running t' = none := by
        rw [htimers]
        exact Function.update_self ..
      exact absurd (hr'.2.2.symm.trans hnone) (some_ne_none _)

theorem TimersOk.timerExpires (h : TimersOk modem free) (timer : ℕ) (dialFails : Bool) :
    ∃ modem', timerExpires modem timer dialFails = some modem' ∧ TimersOk modem' free ∧
      (modem' = modem ∨ ∃ slot vcall, modem.RunsFor timer slot vcall ∧ modem.Expires modem' slot vcall) := by
  rcases hrun : modem.timers.running timer with _ | ⟨slot, serial⟩
  · refine ⟨modem, ?_, h, .inl rfl⟩
    unfold Telephony.timerExpires
    rw [hrun]
  · obtain ⟨vcall, hruns, -, -, hring, hremote⟩ := h.armed timer slot serial hrun
    obtain ⟨modem', hexpires, hmade, hexp⟩ := expires_of_runs hruns hring hremote dialFails
    exact ⟨modem', hexpires, h.expires hruns hmade hexp, .inr ⟨slot, vcall, hruns, hexp⟩⟩

/-! ## Every event -/

theorem TimersOk.update (h : TimersOk modem free) {number : List UInt8} {state : ACallState}
    (hfine : ∀ slot, amodemFindCallByNumber modem number = some slot → modem.Armed slot → state.Ringing) :
    TimersOk (amodemUpdateCall modem number state) free := by
  unfold amodemUpdateCall
  rcases hfind : amodemFindCallByNumber modem number with _ | slot
  · exact h
  · have hget : modem.live[slot]? = some (modem.calls slot) :=
      (live_getElem? modem slot).trans (if_pos (findSlot_lt hfind))
    exact h.setState hget (hfine slot hfind)

theorem TimersOk.handleHangup (h : TimersOk modem free) {arg : List UInt8}
    (hfine : ∀ slot, modem.Armed slot → ∀ k < slot, (ModemCommand.chld arg).removes (modem.calls k).call = false) :
    ∃ modem' free', handleHangup modem arg = some modem' ∧ TimersOk modem' free' := by
  unfold Telephony.handleHangup
  split
  · refine h.sweepCalls releaseHeld_quiet fun slot hslot k hk => ?_
    rw [releaseHeld_removes]
    exact hfine slot hslot k hk
  · refine h.sweepCalls releaseActive_quiet fun slot hslot k hk => ?_
    rw [releaseActive_removes]
    exact hfine slot hslot k hk
  · exact h.removeFound hfine
  · exact h.sweepCalls swap_quiet fun _ _ _ _ => swap_keeps _
  · exact h.sweepCalls (holdOthers_quiet _) fun _ _ _ _ => holdOthers_keeps _ _
  · exact h.sweepCalls join_quiet fun _ _ _ _ => join_keeps _
  · exact h.sweepCalls join_quiet fun _ _ _ _ => join_keeps _
  · exact ⟨modem, free, rfl, h⟩

/-- **One event** that is fine keeps the timers in order. -/
theorem TimersOk.step (h : TimersOk modem free) {event : CallEvent} (hfine : event.Fine modem) :
    ∃ modem' free', event.run modem = some modem' ∧ TimersOk modem' free' := by
  rcases event with cmd | ⟨timer, dialFails⟩
  · cases cmd with
    | dial cmd => exact h.dial cmd hfine
    | inbound number => exact ⟨_, free, rfl, h.inbound number hfine⟩
    | answer => exact h.sweepCalls answer_quiet fun _ _ _ _ => answer_keeps _
    | busy =>
      refine h.sweepCalls busy_quiet fun slot hslot k hk => ?_
      rw [busy_removes]
      exact hfine slot hslot k hk
    | update number state => exact ⟨_, free, rfl, h.update hfine⟩
    | disconnect number => exact h.removeFound hfine
    | chld arg => exact h.handleHangup hfine
  · obtain ⟨modem', h1, h2, -⟩ := h.timerExpires timer dialFails
    exact ⟨modem', free, h1, h2⟩

theorem TimersOk.run {events : List CallEvent} (h : TimersOk modem free) (hfine : FineRun modem events) :
    ∃ modem' free', events.foldlM CallEvent.run modem = some modem' ∧ TimersOk modem' free' := by
  induction events generalizing modem free with
  | nil => exact ⟨modem, free, rfl, h⟩
  | cons event events ih =>
    obtain ⟨modem₁, free₁, h1, h2⟩ := h.step hfine.1
    obtain ⟨modem', free', h3, h4⟩ := ih h2 (hfine.2 modem₁ h1)
    refine ⟨modem', free', ?_, h4⟩
    rw [foldlM_cons, h1]
    exact h3

/-! ## How the calls go on -/

/-- The same call later: if no command has changed its state, then its timer has taken it from dialing to alerting or
from there to active, or it is where it was. -/
def AVoiceCall.Follows (vcall vcall' : AVoiceCall) : Prop :=
  vcall'.serial = vcall.serial ∧ (vcall'.touched = false → vcall'.call.state = vcall.call.state ∨
    vcall.call.state = .dialing ∧ vcall'.call.state = .alerting ∨
    vcall.call.state = .alerting ∧ vcall'.call.state = .active)

/-- Every call goes on from one before, or is a new one. -/
def AModem.GoesOn (modem modem' : AModem) : Prop := ∀ vcall' ∈ modem'.live,
  (∃ vcall ∈ modem.live, vcall.Follows vcall') ∨
    vcall'.serial = modem.made ∧ (vcall'.call.dir = .outbound → vcall'.call.state = .dialing)

theorem follows_refl (vcall : AVoiceCall) : vcall.Follows vcall := ⟨rfl, fun _ => .inl rfl⟩

theorem follows_withState (vcall : AVoiceCall) (state : ACallState) : vcall.Follows (vcall.withState state) := by
  unfold AVoiceCall.withState
  split_ifs
  · exact ⟨rfl, fun h => Bool.noConfusion h⟩
  · exact follows_refl vcall

theorem goesOn_subset (h : ∀ vcall' ∈ modem'.live, ∃ vcall ∈ modem.live, vcall.Follows vcall') : modem.GoesOn modem' :=
  fun vcall' hvcall' => .inl (h vcall' hvcall')

theorem goesOn_set {vcall vcall' : AVoiceCall} (hget : modem.live[slot]? = some vcall)
    (hlive : modem'.live = modem.live.set slot vcall') (h : vcall.Follows vcall') : modem.GoesOn modem' := by
  refine goesOn_subset fun v hv => ?_
  rw [hlive] at hv
  rcases mem_or_eq_of_mem_set hv with hv | rfl
  · exact ⟨v, hv, follows_refl v⟩
  · exact ⟨vcall, mem_of_getElem? hget, h⟩

theorem goesOn_refl (modem : AModem) : modem.GoesOn modem := goesOn_subset fun v hv => ⟨v, hv, follows_refl v⟩

theorem goesOn_append (hlive : modem'.live = modem.live ++ [vcall]) (hserial : vcall.serial = modem.made)
    (hstate : vcall.call.dir = .outbound → vcall.call.state = .dialing) : modem.GoesOn modem' := by
  intro v hv
  rw [hlive] at hv
  rcases mem_append.1 hv with hv | hv
  · exact .inl ⟨v, hv, follows_refl v⟩
  · rw [mem_singleton.1 hv]
    exact .inr ⟨hserial, hstate⟩

theorem sweepList_follows (action : ACall → Action) (calls : List AVoiceCall) :
    ∀ vcall' ∈ sweepList action calls, ∃ vcall ∈ calls, vcall.Follows vcall' := by
  induction calls with
  | nil => exact fun _ h => absurd h not_mem_nil
  | cons vcall rest ih =>
    have hrest : ∀ stop : Bool, ∀ v ∈ (if stop then rest else sweepList action rest),
        ∃ w ∈ vcall :: rest, w.Follows v := by
      intro stop v hv
      cases stop with
      | true => exact ⟨v, mem_cons_of_mem _ hv, follows_refl v⟩
      | false =>
        obtain ⟨w, hw, hf⟩ := ih v hv
        exact ⟨w, mem_cons_of_mem _ hw, hf⟩
    intro v hv
    rw [sweepList] at hv
    rcases haction : action vcall.call with _ | stop | ⟨state, stop⟩ <;> rw [haction] at hv
    · rcases mem_cons.1 hv with rfl | hv
      · exact ⟨v, mem_cons_self, follows_refl v⟩
      · exact hrest false v hv
    · exact hrest stop v hv
    · rcases mem_cons.1 hv with rfl | hv
      · exact ⟨vcall, mem_cons_self, follows_withState vcall state⟩
      · exact hrest stop v hv

theorem sweepCalls_goesOn (h : sweepCalls action modem = some modem') :
    modem.GoesOn modem' := by
  obtain ⟨modem₁, h1, hlive⟩ := sweepCalls_live action modem
  obtain rfl : modem₁ = modem' := Option.some.inj (h1.symm.trans h)
  refine goesOn_subset ?_
  rw [hlive]
  exact sweepList_follows action modem.live

theorem removeFound_goesOn {p : ACall → Bool}
    (h : (match findSlot modem p modem.callCount 0 with
      | none => some modem
      | some slot => amodemFreeCall modem slot) = some modem') : modem.GoesOn modem' := by
  rcases hfind : findSlot modem p modem.callCount 0 with _ | slot
  · rw [hfind] at h
    obtain rfl := Option.some.inj h
    exact goesOn_refl modem
  · rw [hfind] at h
    obtain ⟨modem₁, h1, hlive, -⟩ := live_freeCall (findSlot_lt hfind)
    obtain rfl : modem₁ = modem' := Option.some.inj (h1.symm.trans h)
    refine goesOn_subset fun v hv => ⟨v, ?_, follows_refl v⟩
    rw [hlive] at hv
    exact mem_of_mem_eraseIdx hv

theorem handleHangup_goesOn {arg : List UInt8} (h : handleHangup modem arg = some modem') : modem.GoesOn modem' := by
  unfold handleHangup at h
  split at h
  · exact sweepCalls_goesOn h
  · exact sweepCalls_goesOn h
  · exact removeFound_goesOn h
  · exact sweepCalls_goesOn h
  · exact sweepCalls_goesOn h
  · exact sweepCalls_goesOn h
  · exact sweepCalls_goesOn h
  · obtain rfl := Option.some.inj h
    exact goesOn_refl modem

theorem update_goesOn (modem : AModem) (number : List UInt8) (state : ACallState) :
    modem.GoesOn (amodemUpdateCall modem number state) := by
  unfold amodemUpdateCall
  rcases hfind : amodemFindCallByNumber modem number with _ | slot
  · exact goesOn_refl modem
  · have hget : modem.live[slot]? = some (modem.calls slot) :=
      (live_getElem? modem slot).trans (if_pos (findSlot_lt hfind))
    exact goesOn_set hget (live_setState hget state) (follows_withState _ state)

theorem dial_goesOn {cmd : List UInt8} (h : handleDial modem cmd = some modem') : modem.GoesOn modem' := by
  rcases dial_cases h with ⟨-, timer, hlive⟩ | ⟨-, rfl⟩
  · exact goesOn_append hlive rfl fun _ => rfl
  · exact goesOn_refl modem'

theorem inbound_goesOn (modem : AModem) (number : List UInt8) : modem.GoesOn (amodemAddInboundCall modem number) := by
  by_cases hlt : modem.callCount < maxCalls
  · exact goesOn_append (inbound_live hlt number).1 rfl fun h => ACallDir.noConfusion h
  · rw [inbound_full hlt]
    exact goesOn_refl modem

theorem expires_goesOn (hget : modem.live[slot]? = some vcall)
    (h : modem.Expires modem' slot vcall) : modem.GoesOn modem' := by
  rcases h with ⟨hstate, hlive, -⟩ | ⟨hstate, hlive, -⟩
  · exact goesOn_set hget hlive ⟨rfl, fun _ => .inr (.inl ⟨hstate, rfl⟩)⟩
  · exact goesOn_set hget hlive ⟨rfl, fun _ => .inr (.inr ⟨hstate, rfl⟩)⟩

theorem TimersOk.goesOn (h : TimersOk modem free) {event : CallEvent} (hrun : event.run modem = some modem') :
    modem.GoesOn modem' := by
  rcases event with cmd | ⟨timer, dialFails⟩
  · cases cmd with
    | dial cmd => exact dial_goesOn hrun
    | inbound number =>
      obtain rfl := Option.some.inj hrun
      exact inbound_goesOn modem number
    | answer => exact sweepCalls_goesOn hrun
    | busy => exact sweepCalls_goesOn hrun
    | update number state =>
      obtain rfl := Option.some.inj hrun
      exact update_goesOn modem number state
    | disconnect number => exact removeFound_goesOn hrun
    | chld arg => exact handleHangup_goesOn hrun
  · obtain ⟨modem₁, h1, -, h3⟩ := h.timerExpires timer dialFails
    obtain rfl : modem₁ = modem' := Option.some.inj (h1.symm.trans hrun)
    rcases h3 with rfl | ⟨slot, vcall, hruns, hexp⟩
    · exact goesOn_refl _
    · exact expires_goesOn hruns.1 hexp

/-! ## Runs -/

/-- The timers act on their own calls only:
* no two calls hold the same timer, and no two calls are the same one;
* a timer that is set was set by the call in the slot it points to, which waits for it, and when it expires that call
  goes on to the next state and nothing else happens;
* a call that was dialled and that no command has changed waits for its timer or is active, and goes that way only. -/
structure OwnTimers (modem : AModem) : Prop where
  timers : modem.callTimers.Nodup
  serials : (modem.live.map AVoiceCall.serial).Nodup
  armed : ∀ timer slot serial, modem.timers.running timer = some (slot, serial) →
    ∃ vcall, modem.RunsFor timer slot vcall ∧ vcall.serial = serial ∧ vcall.call.state.Ringing ∧
      ∀ dialFails, ∃ modem', timerExpires modem timer dialFails = some modem' ∧ modem.Expires modem' slot vcall
  dialled : modem.DialledOk
  goesOn : ∀ (event : CallEvent) (modem' : AModem), event.run modem = some modem' → modem.GoesOn modem'

theorem TimersOk.ownTimers (h : TimersOk modem free) : OwnTimers modem := by
  refine ⟨(nodup_append.1 h.nodup).2.1, h.serials, fun timer slot serial hrun => ?_, h.dialled,
    fun event modem' hrun => h.goesOn hrun⟩
  obtain ⟨vcall, hruns, hserial, -, hring, hremote⟩ := h.armed timer slot serial hrun
  refine ⟨vcall, hruns, hserial, hring, fun dialFails => ?_⟩
  obtain ⟨modem', h1, -, h2⟩ := expires_of_runs hruns hring hremote dialFails
  exact ⟨modem', h1, h2⟩

/-- The events one after another, on a fresh modem. -/
def eventRun (events : List CallEvent) : Option AModem := events.foldlM CallEvent.run amodemCreate

/-- **The timers of the calls.** A run of fine events goes on to its end, and every timer acts on its own call. -/
theorem callTimers_run {events : List CallEvent} (h : FineRun amodemCreate events) :
    ∃ modem, eventRun events = some modem ∧ OwnTimers modem := by
  obtain ⟨modem, free, h1, h2⟩ := amodemCreate_timersOk.run h
  exact ⟨modem, h1, h2.ownTimers⟩

/-- A call is dialled, rings and is answered. -/
theorem callTimers_answered :
    (eventRun [.command (.dial [49]), .expire 0 false, .expire 0 false]).map
      (fun modem => modem.callList.map ACall.state) = some [.active] ∧
    ∃ modem, eventRun [.command (.dial [49]), .expire 0 false, .expire 0 false] = some modem ∧ OwnTimers modem := by
  refine ⟨by decide, callTimers_run ⟨fun _ => by decide,
    fun _ _ => ⟨trivial, fun _ _ => ⟨trivial, fun _ _ => trivial⟩⟩⟩⟩

/-- The first of two calls is put down, and the second one moves into its slot: the timer of the second call still
points to the slot where it was, and after two of its ticks the call is still dialing. -/
theorem callTimers_moved :
    (eventRun [.command (.dial [49]), .command (.dial [50]), .command (.disconnect [49]), .expire 1 false,
      .expire 1 false]).map (fun modem => modem.callList.map ACall.state) = some [.dialing] ∧
    ¬ ∀ events modem, eventRun events = some modem → OwnTimers modem := by
  refine ⟨by decide, fun hall => ?_⟩
  have hrun : (eventRun [.command (.dial [49]), .command (.dial [50]), .command (.disconnect [49])]).map
      (fun modem => (modem.callCount, modem.timers.running 1)) = some (1, some (1, 1)) := by decide
  obtain ⟨modem, h, hm⟩ := map_eq_some_iff.1 hrun
  obtain ⟨hcount, hrunning⟩ := Prod.mk.inj hm
  obtain ⟨vcall, hruns, -⟩ := (hall _ modem h).armed 1 1 1 hrunning
  have hlt := (List.getElem?_eq_some_iff.1 hruns.1).1
  rw [live_length, hcount] at hlt
  exact absurd hlt (by decide)

end Emulator.Telephony
