import Emulator.Telephony.Modem

/-!
# The call table

The calls in use as a list, and what every command does to that list: the array that is
moved up under the loops is not seen any more.

* `sweep_live`: a sweep over the array is one over the list, whatever it removes.
* `callTable`: in every run the table is well formed, and every command does to the list of
  calls what it should.
-/

namespace Emulator.Telephony

open Option
open List hiding range_succ

/-! ## The calls in use -/

variable {modem modem' : AModem} {slot : ℕ}

theorem live_length (modem : AModem) : modem.live.length = modem.callCount := by
  unfold AModem.live
  simp

theorem live_getElem? (modem : AModem) (k : ℕ) :
    modem.live[k]? = if k < modem.callCount then some (modem.calls k) else none := by
  unfold AModem.live
  rw [List.getElem?_map]
  split_ifs with h
  · rw [List.getElem?_range h, map_some]
  · rw [List.getElem?_eq_none (by simpa using h), map_none]

theorem live_setCall (f : AVoiceCall → AVoiceCall) (h : slot < modem.callCount) :
    (setCall modem slot f).live = modem.live.set slot (f (modem.calls slot)) := by
  refine ext_getElem? fun k => ?_
  rw [live_getElem?, List.getElem?_set, live_getElem?, live_length]
  change (if k < modem.callCount then some (Function.update modem.calls slot (f (modem.calls slot)) k) else none) = _
  by_cases hk : slot = k
  · subst hk
    rw [if_pos h, if_pos rfl, if_pos h, Function.update_self]
  · rw [Function.update_of_ne (Ne.symm hk), if_neg hk]

/-- **Removing a call** keeps all the others, in order. -/
theorem live_freeCall (h : slot < modem.callCount) :
    ∃ modem', amodemFreeCall modem slot = some modem' ∧ modem'.live = modem.live.eraseIdx slot ∧
      modem'.made = modem.made := by
  unfold amodemFreeCall
  simp only [if_pos h]
  refine ⟨_, rfl, ext_getElem? fun k => ?_, rfl⟩
  rw [live_getElem?, List.getElem?_eraseIdx, live_getElem?, live_getElem?]
  simp only
  by_cases hk : k < slot
  · rw [if_pos hk, if_pos (by omega), if_neg (by omega), if_pos (by omega), Function.update_of_ne (by omega)]
  · rw [if_neg hk]
    by_cases hlast : k < modem.callCount - 1
    · rw [if_pos hlast, if_pos (by omega), if_pos (by omega), Function.update_of_ne (by omega)]
    · rw [if_neg hlast, if_neg (by omega)]

/-- The call with another state. -/
def AVoiceCall.withState (vcall : AVoiceCall) (state : ACallState) : AVoiceCall :=
  if state ≠ vcall.call.state then { vcall with call := { vcall.call with state := state }, touched := true } else vcall

theorem acallSetState_eq (modem : AModem) (slot : ℕ) (state : ACallState) :
    acallSetState modem slot state = setCall modem slot fun vcall => vcall.withState state := by
  unfold acallSetState setCall AVoiceCall.withState
  simp only
  split_ifs
  · rfl
  · rw [Function.update_eq_self]

/-! ## Sweeps -/

/-- A sweep over the list of calls. -/
def sweepList (action : ACall → Action) : List AVoiceCall → List AVoiceCall
  | [] => []
  | vcall :: rest =>
    match action vcall.call with
    | .keep => vcall :: sweepList action rest
    | .remove stop => if stop then rest else sweepList action rest
    | .set state stop => vcall.withState state :: if stop then rest else sweepList action rest

/-- **A sweep over the table is one over the list**: `done` has been swept. -/
theorem sweep_live (action : ACall → Action) {left : ℕ} (done : List AVoiceCall) {rest : List AVoiceCall}
    (hlive : modem.live = done ++ rest) (hleft : rest.length ≤ left) :
    ∃ modem', sweep action left done.length modem = some modem' ∧ modem'.live = done ++ sweepList action rest := by
  induction left generalizing modem done rest with
  | zero =>
    obtain rfl := eq_nil_of_length_eq_zero (Nat.le_zero.1 hleft)
    exact ⟨modem, rfl, hlive⟩
  | succ left ih =>
    have hcount : modem.callCount = done.length + rest.length := by
      rw [← live_length, hlive, length_append]
    cases rest with
    | nil =>
      refine ⟨modem, ?_, hlive⟩
      unfold sweep
      rw [if_neg (by simp [hcount])]
    | cons vcall rest =>
      have hlt : done.length < modem.callCount := by
        rw [hcount, length_cons]
        omega
      have hget : modem.calls done.length = vcall := by
        have := live_getElem? modem done.length
        rw [if_pos hlt, hlive, List.getElem?_append_right (Nat.le_refl _)] at this
        simpa using this.symm
      have hrest : rest.length ≤ left := by simpa using hleft
      unfold sweep sweepList
      rw [if_pos hlt, hget]
      rcases action vcall.call with _ | stop | ⟨state, stop⟩
      · -- the call is kept
        obtain ⟨modem', h1, h2⟩ := ih (done ++ [vcall]) (by rw [hlive]; simp) hrest
        exact ⟨modem', by simpa using h1, by simpa using h2⟩
      · -- the call is removed, and the next one is in its slot
        obtain ⟨modem₁, h1, h2, -⟩ := live_freeCall hlt
        have hlive₁ : modem₁.live = done ++ rest := by
          rw [h2, hlive, eraseIdx_append_of_length_le (Nat.le_refl _)]
          simp
        simp only [h1, bind_some]
        split_ifs
        · exact ⟨modem₁, rfl, hlive₁⟩
        · exact ih done hlive₁ hrest
      · have hlive₁ : (acallSetState modem done.length state).live = done ++ vcall.withState state :: rest := by
          rw [acallSetState_eq, live_setCall _ hlt, hget, hlive, set_append_right _ _ (Nat.le_refl _)]
          simp
        simp only
        split_ifs
        · exact ⟨_, rfl, hlive₁⟩
        · obtain ⟨modem', h1, h2⟩ := ih (done ++ [vcall.withState state]) (by rw [hlive₁]; simp) hrest
          exact ⟨modem', by simpa using h1, by simpa using h2⟩

theorem sweepCalls_live (action : ACall → Action) (modem : AModem) :
    ∃ modem', sweepCalls action modem = some modem' ∧ modem'.live = sweepList action modem.live :=
  sweep_live action [] rfl (by rw [live_length])

/-! ## What the commands do to the list of calls -/

inductive ModemCommand where
  | dial (cmd : List UInt8)
  | inbound (number : List UInt8)
  | answer
  | busy
  | update (number : List UInt8) (state : ACallState)
  | disconnect (number : List UInt8)
  | chld (arg : List UInt8)

def ModemCommand.run (modem : AModem) : ModemCommand → Option AModem
  | dial cmd => handleDial modem cmd
  | inbound number => some (amodemAddInboundCall modem number)
  | answer => sweepCalls answerAction modem
  | busy => sweepCalls busyAction modem
  | update number state => some (amodemUpdateCall modem number state)
  | disconnect number => amodemDisconnectCall modem number
  | chld arg => handleHangup modem arg

def ACall.withState (call : ACall) (state : ACallState) : ACall := { call with state := state }

/-- The first call with the property is changed. -/
def modifyFirst (p : ACall → Bool) (f : ACall → ACall) : List ACall → List ACall
  | [] => []
  | call :: calls => if p call then f call :: calls else call :: modifyFirst p f calls

/-- A call is added behind the others if there is room for it. -/
def Added (calls calls' : List ACall) (new : ℕ → ACall) : Prop :=
  if calls.length < maxCalls then ∃ id, calls' = calls ++ [new id] else calls' = calls

/-- What `+CHLD` does to the calls. A held call is accepted. -/
def ChldAfter (calls calls' : List ACall) (arg : List UInt8) : Prop :=
  match arg with
  | 48 :: _ => calls' = calls.filter fun call =>
      ¬ (call.mode = .voice ∧ (call.state = .held ∨ call.state = .waiting ∨ call.state = .incoming))
  | [49] => calls' = (calls.filter fun call => ¬ (call.mode = .voice ∧ call.state = .active)).map fun call =>
      if call.mode = .voice ∧ (call.state = .held ∨ call.state = .waiting) then call.withState .active else call
  | 49 :: c :: _ => calls' = calls.eraseP fun call => (call.id : ℤ) = c.toNat - 48
  | [50] => calls' = calls.map fun call =>
      if call.mode = .voice ∧ call.state = .active then call.withState .held
      else if call.mode = .voice ∧ (call.state = .held ∨ call.state = .waiting) then call.withState .active
      else call
  | 50 :: c :: _ => calls' = calls.map fun call =>
      if call.mode = .voice ∧ call.state = .active ∧ (call.id : ℤ) ≠ c.toNat - 48 then call.withState .held else call
  | 51 :: _ | 52 :: _ =>
    calls' = modifyFirst (fun call => call.mode = .voice ∧ call.state = .held)
      (fun call => call.withState .active) calls
  | _ => calls' = calls

/-- What a command does to the calls: those that it does not remove stay as they are and in order, but for the states
that it changes. -/
def CallsAfter (calls calls' : List ACall) : ModemCommand → Prop
  | .dial cmd => Added calls calls' fun id => ⟨id, .outbound, .dialing, .voice, 0, dialNumber cmd⟩
  | .inbound number => Added calls calls' fun id => ⟨id, .inbound, .incoming, .voice, 0, number.take callNumberMaxSize⟩
  | .answer => calls' = calls.map fun call =>
      if call.state = .incoming then call.withState .active
      else if call.state = .active then call.withState .held
      else call
  | .busy => calls' = calls.eraseP fun call => call.state = .incoming
  | .update number state =>
    calls' = modifyFirst (fun call => call.number = number) (fun call => call.withState state) calls
  | .disconnect number => calls' = calls.eraseP fun call => call.number = number
  | .chld arg => ChldAfter calls calls' arg

def AModem.callList (modem : AModem) : List ACall := modem.live.map AVoiceCall.call

/-- A sweep over the list, seen as calls. -/
def sweepACalls (action : ACall → Action) : List ACall → List ACall
  | [] => []
  | call :: rest =>
    match action call with
    | .keep => call :: sweepACalls action rest
    | .remove stop => if stop then rest else sweepACalls action rest
    | .set state stop => call.withState state :: if stop then rest else sweepACalls action rest

theorem withState_call (vcall : AVoiceCall) (state : ACallState) :
    (vcall.withState state).call = vcall.call.withState state := by
  unfold AVoiceCall.withState ACall.withState
  split_ifs with h
  · rfl
  · rw [not_not.1 h]

theorem sweepList_call (action : ACall → Action) (calls : List AVoiceCall) :
    (sweepList action calls).map AVoiceCall.call = sweepACalls action (calls.map AVoiceCall.call) := by
  induction calls with
  | nil => rfl
  | cons vcall rest ih =>
    rw [map_cons, sweepList, sweepACalls]
    rcases action vcall.call with _ | stop | ⟨state, stop⟩
    · rw [map_cons, ih]
    · cases stop
      · exact ih
      · rfl
    · cases stop
      · rw [map_cons, withState_call]
        exact congrArg _ ih
      · rw [map_cons, withState_call]
        rfl

theorem sweepCalls_callList (action : ACall → Action) (modem : AModem) :
    ∃ modem', sweepCalls action modem = some modem' ∧ modem'.callList = sweepACalls action modem.callList := by
  obtain ⟨modem', h1, h2⟩ := sweepCalls_live action modem
  refine ⟨modem', h1, ?_⟩
  unfold AModem.callList
  rw [h2, sweepList_call]

theorem sweep_answer (calls : List ACall) : CallsAfter calls (sweepACalls answerAction calls) .answer := by
  induction calls with
  | nil => rfl
  | cons call rest ih =>
    rw [CallsAfter, map_cons, ← ih, sweepACalls, answerAction]
    split_ifs <;> rfl

theorem sweep_busy (calls : List ACall) : CallsAfter calls (sweepACalls busyAction calls) .busy := by
  induction calls with
  | nil => rfl
  | cons call rest ih =>
    rw [CallsAfter, eraseP_cons, ← ih, sweepACalls, busyAction]
    split_ifs <;> simp_all

theorem sweep_releaseHeld (calls : List ACall) (arg : List UInt8) :
    ChldAfter calls (sweepACalls releaseHeldAction calls) (48 :: arg) := by
  induction calls with
  | nil => rfl
  | cons call rest ih =>
    rw [ChldAfter] at ih ⊢
    rw [filter_cons, ← ih, sweepACalls, releaseHeldAction, voiceAction]
    split_ifs <;> simp_all

theorem sweep_releaseActive (calls : List ACall) : ChldAfter calls (sweepACalls releaseActiveAction calls) [49] := by
  induction calls with
  | nil => rfl
  | cons call rest ih =>
    rw [ChldAfter] at ih ⊢
    rw [filter_cons, sweepACalls, ih, releaseActiveAction, voiceAction]
    by_cases hv : call.mode = .voice <;> by_cases ha : call.state = .active <;>
      by_cases hh : call.state = .held ∨ call.state = .waiting <;> simp_all

theorem sweep_swap (calls : List ACall) : ChldAfter calls (sweepACalls swapAction calls) [50] := by
  induction calls with
  | nil => rfl
  | cons call rest ih =>
    rw [ChldAfter] at ih ⊢
    rw [map_cons, ← ih, sweepACalls, swapAction, voiceAction]
    by_cases hv : call.mode = .voice <;> by_cases ha : call.state = .active <;>
      by_cases hh : call.state = .held ∨ call.state = .waiting <;> simp_all

theorem sweep_holdOthers (calls : List ACall) (c : UInt8) (arg : List UInt8) :
    ChldAfter calls (sweepACalls (holdOthersAction (c.toNat - 48)) calls) (50 :: c :: arg) := by
  induction calls with
  | nil => rfl
  | cons call rest ih =>
    rw [ChldAfter] at ih ⊢
    rw [map_cons, sweepACalls, ih, holdOthersAction, voiceAction]
    by_cases hv : call.mode = .voice <;> by_cases ha : call.state = .active <;>
      by_cases hid : (call.id : ℤ) = c.toNat - 48 <;> simp_all

theorem sweep_join (calls : List ACall) : sweepACalls joinAction calls =
    modifyFirst (fun call => call.mode = .voice ∧ call.state = .held) (fun call => call.withState .active) calls := by
  induction calls with
  | nil => rfl
  | cons call rest ih =>
    rw [modifyFirst, sweepACalls, ih, joinAction, voiceAction]
    by_cases hv : call.mode = .voice <;> by_cases hh : call.state = .held <;> simp_all

/-! ## Finding a call -/

theorem findSlot_eq (modem : AModem) (p : ACall → Bool) (left slot : ℕ) :
    findSlot modem p left slot =
      (((List.range' slot left).map fun k => (modem.calls k).call).findIdx? p).map (slot + ·) := by
  induction left generalizing slot with
  | zero => rfl
  | succ left ih =>
    rw [findSlot, List.range'_succ, map_cons, List.findIdx?_cons, ih]
    split_ifs
    · rfl
    · rw [Option.map_map]
      congr 1
      funext k
      simp only [Function.comp_apply]
      omega

theorem findSlot_callList (modem : AModem) (p : ACall → Bool) :
    findSlot modem p modem.callCount 0 = modem.callList.findIdx? p := by
  rw [findSlot_eq, ← range_eq_range']
  unfold AModem.callList AModem.live
  rw [List.map_map]
  simp [Function.comp_def]

theorem callList_length (modem : AModem) : modem.callList.length = modem.callCount := by
  unfold AModem.callList
  rw [length_map, live_length]

variable {p : ACall → Bool}

theorem findSlot_lt (h : findSlot modem p modem.callCount 0 = some slot) :
    slot < modem.callCount := by
  rw [findSlot_callList] at h
  rw [← callList_length]
  exact (List.findIdx?_eq_some_iff_getElem.1 h).1

/-- The call that is found is removed. -/
theorem free_found (h : findSlot modem p modem.callCount 0 = some slot) :
    ∃ modem', amodemFreeCall modem slot = some modem' ∧ modem'.callList = modem.callList.eraseP p := by
  obtain ⟨modem', h1, h2, -⟩ := live_freeCall (findSlot_lt h)
  refine ⟨modem', h1, ?_⟩
  rw [findSlot_callList] at h
  rw [eraseP_eq_eraseIdx, h]
  unfold AModem.callList
  rw [h2]
  exact (eraseIdx_map ..).symm

theorem eraseP_not_found (h : findSlot modem p modem.callCount 0 = none) :
    modem.callList.eraseP p = modem.callList := by
  rw [findSlot_callList] at h
  rw [eraseP_eq_eraseIdx, h]

variable {calls : List ACall}

theorem modifyFirst_of_none (f : ACall → ACall) (h : calls.findIdx? p = none) :
    modifyFirst p f calls = calls := by
  induction calls with
  | nil => rfl
  | cons call calls ih =>
    rw [List.findIdx?_cons] at h
    split_ifs at h with hp
    rw [modifyFirst, if_neg hp, ih (by simpa using h)]

theorem modifyFirst_of_some (f : ACall → ACall) {i : ℕ} {call : ACall}
    (h : calls.findIdx? p = some i) (hget : calls[i]? = some call) : modifyFirst p f calls = calls.set i (f call) := by
  induction calls generalizing i with
  | nil => simp at h
  | cons c calls ih =>
    rw [List.findIdx?_cons] at h
    split_ifs at h with hp
    · obtain rfl := Option.some.inj h
      obtain rfl : c = call := by simpa using hget
      rw [modifyFirst, if_pos hp, set_cons_zero]
    · obtain ⟨j, hj, rfl⟩ := map_eq_some_iff.1 h
      rw [modifyFirst, if_neg hp, set_cons_succ, ih hj (by simpa using hget)]

theorem callList_update (modem : AModem) (number : List UInt8) (state : ACallState) :
    CallsAfter modem.callList (amodemUpdateCall modem number state).callList (.update number state) := by
  unfold CallsAfter amodemUpdateCall amodemFindCallByNumber
  rcases h : findSlot modem (fun call => call.number = number) modem.callCount 0 with _ | slot
  · rw [findSlot_callList] at h
    simp only
    rw [modifyFirst_of_none _ h]
  · have hlt := findSlot_lt h
    have hget : modem.callList[slot]? = some (modem.calls slot).call := by
      unfold AModem.callList
      rw [List.getElem?_map, live_getElem?, if_pos hlt, map_some]
    rw [findSlot_callList] at h
    simp only
    rw [modifyFirst_of_some _ h hget, acallSetState_eq]
    unfold AModem.callList
    rw [live_setCall _ hlt, map_set, withState_call]

/-! ## Ids -/

/-- The ids of the calls are distinct, and there are at most four calls. -/
structure TableOk (calls : List ACall) : Prop where
  count_le : calls.length ≤ maxCalls
  nodup : (calls.map ACall.id).Nodup
  range : ∀ call ∈ calls, 1 ≤ call.id ∧ call.id ≤ maxCalls

theorem tableOk_nil : TableOk [] := ⟨Nat.zero_le _, .nil, fun _ h => absurd h not_mem_nil⟩

/-- Calls that are removed, or changed in other fields than their id. -/
theorem TableOk.sublist {calls calls' : List ACall} (h : TableOk calls)
    (hs : (calls'.map ACall.id).Sublist (calls.map ACall.id)) : TableOk calls' := by
  refine ⟨?_, h.nodup.sublist hs, fun call hcall => ?_⟩
  · have hlen := hs.length_le
    rw [length_map, length_map] at hlen
    exact hlen.trans h.count_le
  · obtain ⟨call', hcall', hid⟩ := List.mem_map.1 (hs.mem (List.mem_map_of_mem hcall))
    rw [← hid]
    exact h.range call' hcall'

/-- The id of a call finds that call. -/
theorem TableOk.find (h : TableOk modem.callList) (hslot : slot < modem.callCount) :
    amodemFindCall modem (modem.calls slot).call.id = some slot := by
  have hget : ∀ k (hk : k < modem.callList.length), modem.callList[k] = (modem.calls k).call := by
    intro k hk
    simp [AModem.callList, AModem.live]
  unfold amodemFindCall
  rw [findSlot_callList, List.findIdx?_eq_some_iff_getElem]
  refine ⟨by rwa [callList_length], by simp [hget], fun k hk => ?_⟩
  -- an earlier call with the same id would be the same call
  have hk' : k < modem.callList.length := by
    rw [callList_length]
    omega
  have hne := (pairwise_iff_getElem.1 h.nodup) k slot (by simpa using hk') (by simpa [callList_length]) hk
  simpa [hget] using hne

theorem TableOk.append (h : TableOk calls) {call : ACall} (hlen : calls.length < maxCalls)
    (hnew : call.id ∉ calls.map ACall.id) (hrange : 1 ≤ call.id ∧ call.id ≤ maxCalls) : TableOk (calls ++ [call]) := by
  refine ⟨by simpa using hlen, ?_, fun c hc => ?_⟩
  · rw [map_append, map_singleton]
    exact nodup_append_comm.1 (nodup_cons.2 ⟨hnew, h.nodup⟩)
  · rcases mem_append.1 hc with hc | hc
    · exact h.range c hc
    · rw [mem_singleton.1 hc]
      exact hrange

theorem freeId_cases (modem : AModem) (left id : ℕ) :
    (freeId modem left id ∉ modem.callList.map ACall.id ∧ id < freeId modem left id ∧
      freeId modem left id ≤ id + left) ∨
      (freeId modem left id = id + left + 1 ∧ ∀ j, id < j → j ≤ id + left → j ∈ modem.callList.map ACall.id) := by
  induction left generalizing id with
  | zero => exact .inr ⟨rfl, fun j h1 h2 => by omega⟩
  | succ left ih =>
    have hmem : (∃ vcall ∈ modem.live, vcall.call.id = id + 1) ↔ id + 1 ∈ modem.callList.map ACall.id := by
      unfold AModem.callList
      simp
    unfold freeId
    split_ifs with hused
    · rcases ih (id + 1) with ⟨h1, h2, h3⟩ | ⟨h1, h2⟩
      · exact .inl ⟨h1, by omega, by omega⟩
      · refine .inr ⟨by omega, fun j hj hj' => ?_⟩
        rcases Nat.lt_or_ge (id + 1) j with hlt | hge
        · exact h2 j hlt (by omega)
        · obtain rfl : j = id + 1 := by omega
          exact hmem.1 hused
    · exact .inl ⟨fun h => hused (hmem.2 h), by omega, by omega⟩

/-- **The id of a new call** is one that no other call has. -/
theorem freeId_ok (hlt : modem.callCount < maxCalls) :
    freeId modem modem.callCount 0 ∉ modem.callList.map ACall.id ∧
      1 ≤ freeId modem modem.callCount 0 ∧ freeId modem modem.callCount 0 ≤ maxCalls := by
  rcases freeId_cases modem modem.callCount 0 with ⟨h1, h2, h3⟩ | ⟨h1, h2⟩
  · exact ⟨h1, by omega, by omega⟩
  · refine ⟨fun hmem => ?_, by omega, by omega⟩
    -- there would be one id more than there are calls
    have hsub : List.range' 1 (modem.callCount + 1) ⊆ modem.callList.map ACall.id := by
      intro j hj
      obtain ⟨hj1, hj2⟩ := mem_range'_1.1 hj
      rcases Nat.lt_or_ge modem.callCount j with hlt' | hge
      · obtain rfl : j = freeId modem modem.callCount 0 := by omega
        exact hmem
      · exact h2 j (by omega) (by omega)
    have hlen := (subperm_of_subset nodup_range' hsub).length_le
    rw [length_range', length_map, callList_length] at hlen
    omega

theorem sweepACalls_ids (action : ACall → Action) (calls : List ACall) :
    ((sweepACalls action calls).map ACall.id).Sublist (calls.map ACall.id) := by
  induction calls with
  | nil => exact List.Sublist.refl _
  | cons call rest ih =>
    unfold sweepACalls
    rcases action call with _ | stop | ⟨state, stop⟩
    · exact ih.cons_cons _
    · cases stop
      · exact ih.cons _
      · exact sublist_cons_self _ _
    · cases stop
      · exact ih.cons_cons _
      · exact List.Sublist.refl _

theorem modifyFirst_ids (p : ACall → Bool) (state : ACallState) (calls : List ACall) :
    (modifyFirst p (fun call => call.withState state) calls).map ACall.id = calls.map ACall.id := by
  induction calls with
  | nil => rfl
  | cons call calls ih =>
    unfold modifyFirst
    split_ifs
    · rfl
    · rw [map_cons, map_cons, ih]

/-! ## New calls -/

/-- The new call is behind the others. -/
theorem alloc_live (hlt : modem.callCount < maxCalls) :
    ∃ modem', amodemAllocCall modem = some (modem.callCount, modem') ∧ modem'.callCount = modem.callCount + 1 ∧
      (∀ k < modem.callCount, modem'.calls k = modem.calls k) ∧
      modem'.calls modem.callCount = { modem.calls modem.callCount with
        call := { (modem.calls modem.callCount).call with id := freeId modem modem.callCount 0 }
        serial := modem.made
        touched := false } ∧ modem'.timers = modem.timers ∧ modem'.made = modem.made + 1 := by
  refine ⟨_, if_pos hlt, rfl, fun k hk => Function.update_of_ne (by omega) _ _, ?_, rfl, rfl⟩
  simp only [Function.update_self]

theorem alloc_none (hlt : ¬ modem.callCount < maxCalls) : amodemAllocCall modem = none := if_neg hlt

/-- The calls when the new one has been filled in. -/
theorem live_new (f : AVoiceCall → AVoiceCall) (hc : modem'.callCount = modem.callCount + 1)
    (hk : ∀ k < modem.callCount, modem'.calls k = modem.calls k) :
    (setCall modem' modem.callCount f).live = modem.live ++ [f (modem'.calls modem.callCount)] := by
  have hlive : modem'.live = modem.live ++ [modem'.calls modem.callCount] := by
    unfold AModem.live
    rw [hc, List.range_succ, map_append, map_singleton]
    congr 1
    exact map_congr_left fun k hk' => hk k (mem_range.1 hk')
  rw [live_setCall f (by omega), hlive, ← live_length modem, set_append_right _ _ (Nat.le_refl _)]
  simp

/-- A call that is dialled. -/
def dialledCall (modem : AModem) (cmd : List UInt8) (timer : ℕ) : AVoiceCall where
  call := ⟨freeId modem modem.callCount 0, .outbound, .dialing, .voice, 0, dialNumber cmd⟩
  timer := some timer
  isRemote := isRemoteNumber (dialNumber cmd)
  serial := modem.made
  touched := false

/-- An inbound call has the timer of its slot. -/
def inboundCall (modem : AModem) (number : List UInt8) : AVoiceCall where
  call := ⟨freeId modem modem.callCount 0, .inbound, .incoming, .voice, 0, number.take callNumberMaxSize⟩
  timer := (modem.calls modem.callCount).timer
  isRemote := isRemoteNumber number
  serial := modem.made
  touched := false

theorem inbound_live (hlt : modem.callCount < maxCalls) (number : List UInt8) :
    (amodemAddInboundCall modem number).live = modem.live ++ [inboundCall modem number] ∧
      (amodemAddInboundCall modem number).made = modem.made + 1 ∧
      (amodemAddInboundCall modem number).timers = modem.timers := by
  obtain ⟨modem₁, h1, hc, hk, hnew, ht, hm⟩ := alloc_live hlt
  unfold amodemAddInboundCall
  simp only [h1]
  refine ⟨?_, hm, ht⟩
  rw [live_new _ hc hk, hnew]
  rfl

theorem inbound_full (hlt : ¬ modem.callCount < maxCalls) (number : List UInt8) :
    amodemAddInboundCall modem number = modem := by
  unfold amodemAddInboundCall
  simp only [alloc_none hlt]

theorem dial_live (hlt : modem.callCount < maxCalls) {timer : ℕ} (htimer : (sysTimerCreate modem.timers).1 = some timer)
    (cmd : List UInt8) :
    ∃ modem', handleDial modem cmd = some modem' ∧ modem'.live = modem.live ++ [dialledCall modem cmd timer] ∧
      modem'.made = modem.made + 1 ∧
      modem'.timers = sysTimerSet (sysTimerCreate modem.timers).2 timer modem.callCount modem.made := by
  obtain ⟨modem₁, h1, hc, hk, hnew, ht, hm⟩ := alloc_live hlt
  have hc' : ({ modem₁ with timers := (sysTimerCreate modem.timers).2 } : AModem).callCount = modem.callCount + 1 := hc
  have hlive := live_new (fun vcall => { vcall with
    call := ⟨vcall.call.id, .outbound, .dialing, .voice, 0, dialNumber cmd⟩
    isRemote := isRemoteNumber (dialNumber cmd)
    timer := some timer }) hc' hk
  simp only [hnew] at hlive
  unfold handleDial
  simp only [h1, ht, htimer, map_some]
  refine ⟨_, rfl, hlive, hm, ?_⟩
  simp only [setCall, Function.update_self, hnew]

theorem dial_full (hlt : ¬ modem.callCount < maxCalls) (cmd : List UInt8) : handleDial modem cmd = some modem := by
  unfold handleDial
  simp only [alloc_none hlt]

theorem dial_no_timer (hlt : modem.callCount < maxCalls) (htimer : (sysTimerCreate modem.timers).1 = none)
    (cmd : List UInt8) : handleDial modem cmd = none := by
  obtain ⟨modem₁, h1, -, -, -, ht, -⟩ := alloc_live hlt
  unfold handleDial
  simp only [h1, ht, htimer, map_none]

/-- What a dial that goes through did: there is another call, or there was no room for one. -/
theorem dial_cases {cmd : List UInt8} (h : handleDial modem cmd = some modem') :
    (modem.callCount < maxCalls ∧ ∃ timer, modem'.live = modem.live ++ [dialledCall modem cmd timer]) ∨
      ¬ modem.callCount < maxCalls ∧ modem' = modem := by
  by_cases hlt : modem.callCount < maxCalls
  · rcases htimer : (sysTimerCreate modem.timers).1 with _ | timer
    · rw [dial_no_timer hlt htimer] at h
      exact absurd h.symm (some_ne_none _)
    · obtain ⟨modem₁, h1, hlive, -⟩ := dial_live hlt htimer cmd
      obtain rfl : modem₁ = modem' := Option.some.inj (h1.symm.trans h)
      exact .inl ⟨hlt, timer, hlive⟩
  · rw [dial_full hlt] at h
    exact .inr ⟨hlt, (Option.some.inj h).symm⟩

/-- A new call is added, with an id of its own. -/
theorem added_ok {calls calls' : List ACall} (new : ℕ → ACall) (hlen : calls.length < maxCalls)
    (hid : ∀ id, (new id).id = id) {id : ℕ} (hnew : id ∉ calls.map ACall.id ∧ 1 ≤ id ∧ id ≤ maxCalls)
    (hcalls : calls' = calls ++ [new id]) : Added calls calls' new ∧ (TableOk calls → TableOk calls') := by
  subst hcalls
  refine ⟨?_, fun h => h.append hlen ?_ ?_⟩
  · unfold Added
    rw [if_pos hlen]
    exact ⟨id, rfl⟩
  · rw [hid]
    exact hnew.1
  · rw [hid]
    exact hnew.2

theorem added_full (new : ℕ → ACall) (hlen : ¬ calls.length < maxCalls) :
    Added calls calls new := by
  unfold Added
  rw [if_neg hlen]

theorem callList_append {vcall : AVoiceCall} (h : modem'.live = modem.live ++ [vcall]) :
    modem'.callList = modem.callList ++ [vcall.call] := by
  unfold AModem.callList
  rw [h, map_append, map_singleton]

theorem inbound_after (modem : AModem) (number : List UInt8) :
    CallsAfter modem.callList (amodemAddInboundCall modem number).callList (.inbound number) ∧
      (TableOk modem.callList → TableOk (amodemAddInboundCall modem number).callList) := by
  by_cases hlt : modem.callCount < maxCalls
  · exact added_ok (fun id => ⟨id, .inbound, .incoming, .voice, 0, number.take callNumberMaxSize⟩)
      (by rwa [callList_length]) (fun _ => rfl) (freeId_ok hlt) (callList_append (inbound_live hlt number).1)
  · rw [inbound_full hlt]
    exact ⟨added_full _ (by rwa [callList_length]), id⟩

theorem dial_after {cmd : List UInt8} (h : handleDial modem cmd = some modem') :
    CallsAfter modem.callList modem'.callList (.dial cmd) ∧ (TableOk modem.callList → TableOk modem'.callList) := by
  rcases dial_cases h with ⟨hlt, timer, hlive⟩ | ⟨hfull, rfl⟩
  · exact added_ok (fun id => ⟨id, .outbound, .dialing, .voice, 0, dialNumber cmd⟩)
      (by rwa [callList_length]) (fun _ => rfl) (freeId_ok hlt) (callList_append hlive)
  · exact ⟨added_full _ (by rwa [callList_length]), id⟩

/-! ## Every command -/

/-- The list of calls is what the command makes of it, and well formed if it was. -/
def After (modem modem' : AModem) (P : Prop) : Prop := P ∧ (TableOk modem.callList → TableOk modem'.callList)

theorem sweep_after {action : ACall → Action} (h : sweepCalls action modem = some modem') :
    After modem modem' (modem'.callList = sweepACalls action modem.callList) := by
  obtain ⟨modem₁, h1, h2⟩ := sweepCalls_callList action modem
  obtain rfl : modem₁ = modem' := Option.some.inj (h1.symm.trans h)
  refine ⟨h2, fun hok => ?_⟩
  rw [h2]
  exact hok.sublist (sweepACalls_ids action _)

/-- Removing the call that is found, if there is one. -/
theorem remove_after
    (h : (match findSlot modem p modem.callCount 0 with
      | none => some modem
      | some slot => amodemFreeCall modem slot) = some modem') :
    After modem modem' (modem'.callList = modem.callList.eraseP p) := by
  have hlist : modem'.callList = modem.callList.eraseP p := by
    rcases hfind : findSlot modem p modem.callCount 0 with _ | slot
    · rw [hfind] at h
      rw [← Option.some.inj h, eraseP_not_found hfind]
    · obtain ⟨modem₁, h1, h2⟩ := free_found hfind
      rw [hfind] at h
      rw [← h2, Option.some.inj (h1.symm.trans h)]
  refine ⟨hlist, fun hok => ?_⟩
  rw [hlist]
  exact hok.sublist ((eraseP_sublist).map _)

theorem update_after (modem : AModem) (number : List UInt8) (state : ACallState) :
    After modem (amodemUpdateCall modem number state)
      (CallsAfter modem.callList (amodemUpdateCall modem number state).callList (.update number state)) := by
  have hlist := callList_update modem number state
  refine ⟨hlist, fun hok => ?_⟩
  rw [hlist]
  refine hok.sublist ?_
  rw [modifyFirst_ids]

theorem chld_after {arg : List UInt8} (h : handleHangup modem arg = some modem') :
    After modem modem' (ChldAfter modem.callList modem'.callList arg) := by
  unfold handleHangup at h
  split at h
  · obtain ⟨h1, h2⟩ := sweep_after h
    exact ⟨h1 ▸ sweep_releaseHeld _ _, h2⟩
  · obtain ⟨h1, h2⟩ := sweep_after h
    exact ⟨h1 ▸ sweep_releaseActive _, h2⟩
  · exact remove_after h
  · obtain ⟨h1, h2⟩ := sweep_after h
    exact ⟨h1 ▸ sweep_swap _, h2⟩
  · obtain ⟨h1, h2⟩ := sweep_after h
    exact ⟨h1 ▸ sweep_holdOthers _ _ _, h2⟩
  · obtain ⟨h1, h2⟩ := sweep_after h
    exact ⟨h1.trans (sweep_join _), h2⟩
  · obtain ⟨h1, h2⟩ := sweep_after h
    exact ⟨h1.trans (sweep_join _), h2⟩
  · obtain rfl := Option.some.inj h
    refine ⟨?_, id⟩
    unfold ChldAfter
    split <;> first | rfl | simp_all

/-- **One command** does to the calls what it should. -/
theorem run_after {cmd : ModemCommand} (h : cmd.run modem = some modem') :
    After modem modem' (CallsAfter modem.callList modem'.callList cmd) := by
  cases cmd with
  | dial cmd => exact dial_after h
  | inbound number =>
    obtain rfl := Option.some.inj h
    exact inbound_after modem number
  | answer =>
    obtain ⟨h1, h2⟩ := sweep_after h
    exact ⟨h1 ▸ sweep_answer _, h2⟩
  | busy =>
    obtain ⟨h1, h2⟩ := sweep_after h
    exact ⟨h1 ▸ sweep_busy _, h2⟩
  | update number state =>
    obtain rfl := Option.some.inj h
    exact update_after modem number state
  | disconnect number => exact remove_after h
  | chld arg => exact chld_after h

/-- Every command but `dial` does something. -/
theorem run_none {cmd : ModemCommand} (h : cmd.run modem = none) :
    ∃ c, cmd = .dial c ∧ modem.timers.freeTimers = none := by
  have hsweep : ∀ action, sweepCalls action modem ≠ none := by
    intro action hnone
    obtain ⟨modem', h1, -⟩ := sweepCalls_callList action modem
    exact some_ne_none _ (h1.symm.trans hnone)
  have hremove : ∀ p : ACall → Bool, (match findSlot modem p modem.callCount 0 with
      | none => some modem
      | some slot => amodemFreeCall modem slot) ≠ none := by
    intro p
    rcases hfind : findSlot modem p modem.callCount 0 with _ | slot
    · exact some_ne_none _
    · obtain ⟨modem₁, h1, -⟩ := free_found hfind
      simp only [h1]
      exact some_ne_none _
  cases cmd with
  | dial cmd =>
    refine ⟨cmd, rfl, ?_⟩
    change handleDial modem cmd = none at h
    by_cases hlt : modem.callCount < maxCalls
    · rcases hfree : modem.timers.freeTimers with _ | timer
      · rfl
      · have htimer : (sysTimerCreate modem.timers).1 = some timer := by
          unfold sysTimerCreate
          rw [hfree]
        obtain ⟨modem₁, h1, -⟩ := dial_live hlt htimer cmd
        exact absurd (h1.symm.trans h) (some_ne_none _)
    · rw [dial_full hlt] at h
      exact absurd h (some_ne_none _)
  | inbound number => exact absurd h (some_ne_none _)
  | answer => exact absurd h (hsweep _)
  | busy => exact absurd h (hsweep _)
  | update number state => exact absurd h (some_ne_none _)
  | disconnect number => exact absurd h (hremove _)
  | chld arg =>
    change handleHangup modem arg = none at h
    unfold handleHangup at h
    split at h
    · exact absurd h (hsweep _)
    · exact absurd h (hsweep _)
    · exact absurd h (hremove _)
    · exact absurd h (hsweep _)
    · exact absurd h (hsweep _)
    · exact absurd h (hsweep _)
    · exact absurd h (hsweep _)
    · exact absurd h (some_ne_none _)

/-! ## Runs -/

/-- The commands one after another, on a fresh modem. -/
def modemRun (cmds : List ModemCommand) : Option AModem := cmds.foldlM ModemCommand.run amodemCreate

theorem foldlM_tableOk {cmds : List ModemCommand} (h : cmds.foldlM ModemCommand.run modem = some modem')
    (hok : TableOk modem.callList) : TableOk modem'.callList := by
  induction cmds generalizing modem with
  | nil =>
    obtain rfl := Option.some.inj h
    exact hok
  | cons cmd cmds ih =>
    rw [foldlM_cons] at h
    obtain ⟨modem₁, h1, h2⟩ := bind_eq_some_iff.1 h
    exact ih h2 ((run_after h1).2 hok)

/-- **The call table is well formed in every run.** The ids are distinct and find their calls, every command does to
the calls what it should (the run ends at a `dial` without a timer), and to remove a call or to change its state leaves
the records of all the others as they are. -/
theorem callTable {cmds : List ModemCommand} (h : modemRun cmds = some modem) :
    modem.callList.length = modem.callCount ∧ TableOk modem.callList ∧
      (∀ slot < modem.callCount, amodemFindCall modem (modem.calls slot).call.id = some slot) ∧
      (∀ cmd : ModemCommand, cmd.run modem = none → ∃ c, cmd = .dial c ∧ modem.timers.freeTimers = none) ∧
      (∀ (cmd : ModemCommand) (modem' : AModem), cmd.run modem = some modem' →
        CallsAfter modem.callList modem'.callList cmd) ∧
      (∀ slot < modem.callCount, ∃ modem', amodemFreeCall modem slot = some modem' ∧
        modem'.live = modem.live.eraseIdx slot) ∧
      ∀ slot < modem.callCount, ∀ state, (acallSetState modem slot state).live =
        modem.live.set slot ((modem.calls slot).withState state) := by
  have hok : TableOk modem.callList := foldlM_tableOk h tableOk_nil
  refine ⟨callList_length modem, hok, fun slot hslot => hok.find hslot, fun cmd hcmd => run_none hcmd,
    fun cmd modem' hcmd => (run_after hcmd).1, fun slot hslot => ?_, fun slot hslot state => ?_⟩
  · obtain ⟨modem', h1, h2, -⟩ := live_freeCall hslot
    exact ⟨modem', h1, h2⟩
  · rw [acallSetState_eq, live_setCall _ hslot]

/-- Two calls are dialled and the first one is put down: the next call gets the free id. -/
theorem callTable_redial : ∃ modem, modemRun [.dial [49], .dial [50], .chld [49, 49], .inbound [51]] = some modem ∧
    modem.callList.map ACall.id = [2, 1] ∧ TableOk modem.callList := by
  have hids : (modemRun [.dial [49], .dial [50], .chld [49, 49], .inbound [51]]).map
      (fun modem => modem.callList.map ACall.id) = some [2, 1] := by decide
  obtain ⟨modem, h, hids⟩ := map_eq_some_iff.1 hids
  exact ⟨modem, h, hids, (callTable h).2.1⟩

end Emulator.Telephony
