import Mathlib.Tactic

/-!
# The active timers of a clock

`qemu_mod_timer`, `qemu_del_timer` and `qemu_run_timers`. A callback is no function here: between
two rounds of `qemu_run_timers` any calls may come, so what callbacks do is in the log like
everything else, newest event first.

* `reach_timersOk`: the list holds the armed timers, in order.
* `reach_timers`: callbacks run in order, once for an arming and never early.
-/

namespace Emulator.Timers

open Function List

variable {T : Type} [DecidableEq T]

/-- The timers of a clock: the list that starts at `active_timers`, and the field `expire_time` of each timer. -/
structure QEMUTimers (T : Type) where
  activeTimers : List T
  expireTime : T → ℤ

/-- The scan of `qemu_mod_timer` for the place of a timer. -/
def linkTimer (expireTimes : T → ℤ) (ts : T) (expireTime : ℤ) : List T → List T
  | [] => [ts]
  | t :: l => if expireTimes t > expireTime then ts :: t :: l else t :: linkTimer expireTimes ts expireTime l

namespace QEMUTimers

def qemuDelTimer (s : QEMUTimers T) (ts : T) : QEMUTimers T :=
  { s with activeTimers := s.activeTimers.erase ts }

def qemuModTimer (s : QEMUTimers T) (ts : T) (expireTime : ℤ) : QEMUTimers T :=
  let s := s.qemuDelTimer ts
  { activeTimers := linkTimer s.expireTime ts expireTime s.activeTimers
    expireTime := update s.expireTime ts expireTime }

def qemuTimerPending (s : QEMUTimers T) (ts : T) : Bool := s.activeTimers.contains ts

/-- A round of the loop of `qemu_run_timers`: the timer whose callback is run, off the list; `none` is the `break`. -/
def runTimersRound (s : QEMUTimers T) (currentTime : ℤ) : Option (T × QEMUTimers T) :=
  match s.activeTimers with
  | [] => none
  | ts :: rest => if s.expireTime ts > currentTime then none else some (ts, { s with activeTimers := rest })

end QEMUTimers

/-- What can happen: a call of `qemu_mod_timer` or `qemu_del_timer`, by a callback or not, and the start, a callback
and the return of a call of `qemu_run_timers`. -/
inductive Event (T : Type)
  | mod (ts : T) (expireTime : ℤ)
  | del (ts : T)
  | enter (currentTime : ℤ)
  | fire (ts : T) (currentTime : ℤ)
  | leave (currentTime : ℤ)

/-- `running` has the `current_time` of each call of `qemu_run_timers` that has not returned, the innermost first. -/
structure Machine (T : Type) where
  timers : QEMUTimers T
  running : List ℤ

namespace Machine

/-- The innermost call of `qemu_run_timers` is the one for `currentTime`, and its next round gives `round`. -/
def Round (m : Machine T) (currentTime : ℤ) (round : Option (T × QEMUTimers T)) : Prop :=
  m.running.head? = some currentTime ∧ m.timers.runTimersRound currentTime = round

/-- A step; nothing is assumed of the callbacks. -/
inductive Step : Machine T → Event T → Machine T → Prop
  | mod (m : Machine T) (ts : T) (expireTime : ℤ) :
      Step m (.mod ts expireTime) { m with timers := m.timers.qemuModTimer ts expireTime }
  | del (m : Machine T) (ts : T) : Step m (.del ts) { m with timers := m.timers.qemuDelTimer ts }
  | enter (m : Machine T) (currentTime : ℤ) :
      Step m (.enter currentTime) { m with running := currentTime :: m.running }
  | fire {m : Machine T} {currentTime : ℤ} {ts : T} {timers : QEMUTimers T}
      (h : m.Round currentTime (some (ts, timers))) : Step m (.fire ts currentTime) { m with timers := timers }
  | leave {m : Machine T} {currentTime : ℤ} (h : m.Round currentTime none) :
      Step m (.leave currentTime) { m with running := m.running.tail }

/-- The states that are reached from no active timer, with the log of what happened, the newest event first. -/
inductive Reach : List (Event T) → Machine T → Prop
  | init (expireTime : T → ℤ) : Reach [] ⟨⟨[], expireTime⟩, []⟩
  | step {log : List (Event T)} {m m' : Machine T} {ev : Event T} (h : Reach log m) (hstep : Step m ev m') :
      Reach (ev :: log) m'

end Machine

/-- An arming: when the timer is due, and the number of events before it. -/
structure Arming where
  expireTime : ℤ
  number : ℕ

/-- Due earlier, or at the same time and armed earlier. -/
def Arming.Before (a b : Arming) : Prop :=
  a.expireTime < b.expireTime ∨ a.expireTime = b.expireTime ∧ a.number < b.number

/-- The arming of a timer that has not been cancelled or moved and whose callback has not been run. -/
def armed (ts : T) : List (Event T) → Option Arming
  | [] => none
  | .mod t e :: log => if t = ts then some ⟨e, log.length⟩ else armed ts log
  | .del t :: log => if t = ts then none else armed ts log
  | .fire t _ :: log => if t = ts then none else armed ts log
  | .enter _ :: log => armed ts log
  | .leave _ :: log => armed ts log

/-- The event cancels the arming of the timer or moves it. -/
def Event.Rearms (ts : T) : Event T → Prop
  | .mod t _ => t = ts
  | .del t => t = ts
  | .enter _ => False
  | .fire _ _ => False
  | .leave _ => False

def Event.fires (ts : T) : Event T → Bool
  | .fire t _ => t = ts
  | .mod _ _ => false
  | .del _ => false
  | .enter _ => false
  | .leave _ => false

/-- The callback that is run belongs to an armed timer that is due, and no other one comes before it. -/
def FiresInOrder (log : List (Event T)) : Prop :=
  ∀ later earlier ts currentTime, log = later ++ .fire ts currentTime :: earlier →
    ∃ a, armed ts earlier = some a ∧ a.expireTime ≤ currentTime ∧
      ∀ t b, t ≠ ts → armed t earlier = some b → a.Before b

/-- When `qemu_run_timers` returns, no armed timer is due. -/
def LeavesNoneDue (log : List (Event T)) : Prop :=
  ∀ later earlier currentTime, log = later ++ .leave currentTime :: earlier →
    ∀ ts a, armed ts earlier = some a → currentTime < a.expireTime

/-- Until an arming is cancelled or moved, the callback is run at most once, and it has been run when a call of
`qemu_run_timers` for which it was due has returned. -/
def FiresOnce (log : List (Event T)) : Prop :=
  ∀ later since earlier ts e, log = later ++ (since ++ .mod ts e :: earlier) →
    (∀ ev ∈ since, ¬ ev.Rearms ts) →
      since.countP (Event.fires ts) ≤ 1 ∧
        ((∃ currentTime, e ≤ currentTime ∧ .leave currentTime ∈ since) → since.countP (Event.fires ts) = 1)

/-- The list of active timers is what the log says: each armed timer once, in the order of their armings. -/
structure TimersOk (log : List (Event T)) (s : QEMUTimers T) : Prop where
  nodup : s.activeTimers.Nodup
  mem_iff : ∀ ts, ts ∈ s.activeTimers ↔ (armed ts log).isSome
  expireTime : ∀ ts a, armed ts log = some a → s.expireTime ts = a.expireTime
  sorted : s.activeTimers.Pairwise fun t u => ∀ a b, armed t log = some a → armed u log = some b → a.Before b

omit [DecidableEq T] in
theorem linkTimer_perm (f : T → ℤ) (ts : T) (e : ℤ) (l : List T) : (linkTimer f ts e l).Perm (ts :: l) := by
  induction l with
  | nil => exact List.Perm.refl _
  | cons t l ih =>
    unfold linkTimer
    split_ifs
    · exact List.Perm.refl _
    · exact (ih.cons t).trans (List.Perm.swap ts t l)

omit [DecidableEq T] in
/-- The scan stops behind the timers that are due no later. -/
theorem linkTimer_pairwise {f : T → ℤ} {ts : T} {e : ℤ} {l : List T} {R : T → T → Prop} (hl : l.Pairwise R)
    (hf : l.Pairwise fun t u => f t ≤ f u) (hbefore : ∀ t ∈ l, f t ≤ e → R t ts) (hafter : ∀ t ∈ l, e < f t → R ts t) :
    (linkTimer f ts e l).Pairwise R := by
  induction l with
  | nil => exact pairwise_singleton R ts
  | cons t l ih =>
    obtain ⟨hfirst, hrest⟩ := pairwise_cons.1 hl
    obtain ⟨hffirst, hfrest⟩ := pairwise_cons.1 hf
    unfold linkTimer
    split_ifs with hdue
    · refine pairwise_cons.2 ⟨fun u hu => ?_, hl⟩
      rcases mem_cons.1 hu with rfl | hu'
      · exact hafter u hu hdue
      · exact hafter u hu (lt_of_lt_of_le hdue (hffirst u hu'))
    · have htail := ih hrest hfrest (fun u hu => hbefore u (mem_cons_of_mem _ hu))
        fun u hu => hafter u (mem_cons_of_mem _ hu)
      refine pairwise_cons.2 ⟨fun u hu => ?_, htail⟩
      rcases mem_cons.1 ((linkTimer_perm f ts e l).mem_iff.1 hu) with rfl | hu'
      · exact hbefore t mem_cons_self (not_lt.1 hdue)
      · exact hfirst u hu'

theorem armed_number_lt {ts : T} {log : List (Event T)} {a : Arming} (h : armed ts log = some a) :
    a.number < log.length := by
  induction log with
  | nil => exact absurd h (by simp [armed])
  | cons ev log ih =>
    rw [length_cons]
    cases ev with
    | mod t e =>
      unfold armed at h
      split_ifs at h
      · obtain rfl := Option.some.inj h
        exact Nat.lt_succ_self _
      · exact Nat.lt_succ_of_lt (ih h)
    | del t =>
      unfold armed at h
      split_ifs at h
      exact Nat.lt_succ_of_lt (ih h)
    | fire t now =>
      unfold armed at h
      split_ifs at h
      exact Nat.lt_succ_of_lt (ih h)
    | enter now => exact Nat.lt_succ_of_lt (ih h)
    | leave now => exact Nat.lt_succ_of_lt (ih h)

namespace TimersOk

variable {log : List (Event T)} {s : QEMUTimers T}

theorem exists_armed (h : TimersOk log s) {ts : T} (hts : ts ∈ s.activeTimers) :
    ∃ a, armed ts log = some a ∧ s.expireTime ts = a.expireTime := by
  obtain ⟨a, ha⟩ := Option.isSome_iff_exists.1 ((h.mem_iff ts).1 hts)
  exact ⟨a, ha, h.expireTime ts a ha⟩

/-- The list is sorted by `expire_time`. -/
theorem sorted_expireTime (h : TimersOk log s) :
    s.activeTimers.Pairwise fun t u => s.expireTime t ≤ s.expireTime u := by
  refine h.sorted.imp_of_mem ?_
  intro t u ht hu hbefore
  obtain ⟨a, ha, hea⟩ := h.exists_armed ht
  obtain ⟨b, hb, heb⟩ := h.exists_armed hu
  rw [hea, heb]
  rcases hbefore a b ha hb with hlt | ⟨heq, -⟩
  · exact hlt.le
  · exact heq.le

theorem pending (h : TimersOk log s) (ts : T) : s.qemuTimerPending ts = (armed ts log).isSome := by
  rw [Bool.eq_iff_iff, ← h.mem_iff ts]
  exact contains_iff_mem

/-- A timer leaves the list, and in the log the same timer is armed no more. -/
theorem remove (h : TimersOk log s) {ev : Event T} {ts : T}
    (hev : ∀ t, armed t (ev :: log) = if ts = t then none else armed t log) :
    TimersOk (ev :: log) { s with activeTimers := s.activeTimers.erase ts } := by
  have hother : ∀ t ∈ s.activeTimers.erase ts, armed t (ev :: log) = armed t log := by
    intro t ht
    rw [hev, if_neg (fun heq => (List.Nodup.mem_erase_iff h.nodup).1 ht |>.1 heq.symm)]
  refine ⟨h.nodup.erase ts, fun t => ?_, fun t a ha => ?_, ?_⟩
  · rw [List.Nodup.mem_erase_iff h.nodup, hev, h.mem_iff t]
    by_cases hts : ts = t
    · simp [hts]
    · simp [hts, Ne.symm hts]
  · rw [hev] at ha
    split_ifs at ha
    exact h.expireTime t a ha
  · refine (h.sorted.sublist erase_sublist).imp_of_mem ?_
    intro t u ht hu hbefore a b ha hb
    rw [hother t ht] at ha
    rw [hother u hu] at hb
    exact hbefore a b ha hb

theorem del (h : TimersOk log s) (ts : T) : TimersOk (.del ts :: log) (s.qemuDelTimer ts) :=
  h.remove fun _ => rfl

theorem mod (h : TimersOk log s) (ts : T) (e : ℤ) : TimersOk (.mod ts e :: log) (s.qemuModTimer ts e) := by
  have hmem : ∀ t, t ∈ s.activeTimers.erase ts ↔ t ≠ ts ∧ t ∈ s.activeTimers := fun t =>
    List.Nodup.mem_erase_iff h.nodup
  have hperm := linkTimer_perm s.expireTime ts e (s.activeTimers.erase ts)
  have hnew : armed ts (.mod ts e :: log) = some ⟨e, log.length⟩ := if_pos rfl
  have hold : ∀ t, t ≠ ts → armed t (.mod ts e :: log) = armed t log := fun t ht => if_neg ht.symm
  have hsorted : (s.activeTimers.erase ts).Pairwise fun t u =>
      ∀ a b, armed t (.mod ts e :: log) = some a → armed u (.mod ts e :: log) = some b → a.Before b := by
    refine (h.sorted.sublist erase_sublist).imp_of_mem ?_
    intro t u ht hu hbefore
    rw [hold t ((hmem t).1 ht).1, hold u ((hmem u).1 hu).1]
    exact hbefore
  refine ⟨?_, ?_, ?_, ?_⟩
  · refine hperm.nodup_iff.2 (nodup_cons.2 ⟨fun hts => ((hmem ts).1 hts).1 rfl, h.nodup.erase ts⟩)
  · intro t
    show t ∈ linkTimer s.expireTime ts e (s.activeTimers.erase ts) ↔ _
    rw [hperm.mem_iff, mem_cons, hmem]
    by_cases hts : t = ts
    · rw [hts, hnew]
      simp
    · rw [hold t hts, ← h.mem_iff t]
      simp [hts]
  · intro t a ha
    show update s.expireTime ts e t = _
    by_cases hts : t = ts
    · rw [hts, hnew] at ha
      rw [hts, update_self, ← Option.some.inj ha]
    · rw [hold t hts] at ha
      rw [update_of_ne hts, h.expireTime t a ha]
  · refine linkTimer_pairwise hsorted (h.sorted_expireTime.sublist erase_sublist) ?_ ?_
    · -- equal times stay in the order of arming: the new arming is the last
      intro t ht hle a b ha hb
      obtain ⟨hts, hin⟩ := (hmem t).1 ht
      rw [hold t hts] at ha
      rw [hnew] at hb
      obtain rfl := Option.some.inj hb
      have hle' : s.expireTime t ≤ e := hle
      rw [h.expireTime t a ha] at hle'
      rcases lt_or_eq_of_le hle' with hlt | heq
      · exact .inl hlt
      · exact .inr ⟨heq, armed_number_lt ha⟩
    · intro t ht hlt a b ha hb
      obtain ⟨hts, hin⟩ := (hmem t).1 ht
      rw [hnew] at ha
      rw [hold t hts] at hb
      obtain rfl := Option.some.inj ha
      have hlt' : e < s.expireTime t := hlt
      rw [h.expireTime t b hb] at hlt'
      exact .inl hlt'

/-- A round takes the first of the armed timers, which is due, or none is due. -/
theorem round (h : TimersOk log s) (now : ℤ) :
    (∃ ts a, s.runTimersRound now = some (ts, { s with activeTimers := s.activeTimers.erase ts }) ∧
      armed ts log = some a ∧ a.expireTime ≤ now ∧ ∀ t b, t ≠ ts → armed t log = some b → a.Before b) ∨
    (s.runTimersRound now = none ∧ ∀ t b, armed t log = some b → now < b.expireTime) := by
  unfold QEMUTimers.runTimersRound
  cases hlist : s.activeTimers with
  | nil =>
    refine .inr ⟨rfl, fun t b hb => ?_⟩
    have hmem := (h.mem_iff t).2 (by rw [hb]; rfl)
    rw [hlist] at hmem
    exact absurd hmem not_mem_nil
  | cons ts rest =>
    have hts : ts ∈ s.activeTimers := by
      rw [hlist]
      exact mem_cons_self
    obtain ⟨a, ha, hea⟩ := h.exists_armed hts
    have hfirst : ∀ t b, t ≠ ts → armed t log = some b → a.Before b := by
      intro t b hne hb
      have hmem := (h.mem_iff t).2 (by rw [hb]; rfl)
      have hsorted := h.sorted
      rw [hlist] at hmem hsorted
      exact (pairwise_cons.1 hsorted).1 t ((mem_cons.1 hmem).resolve_left hne) a b ha hb
    dsimp only
    split_ifs with hdue
    · refine .inr ⟨rfl, fun t b hb => ?_⟩
      rw [hea] at hdue
      by_cases hne : t = ts
      · rw [hne, ha] at hb
        rwa [← Option.some.inj hb]
      · rcases hfirst t b hne hb with hlt | ⟨heq, -⟩
        · omega
        · omega
    · refine .inl ⟨ts, a, ?_, ha, by omega, hfirst⟩
      rw [erase_cons_head]

end TimersOk

namespace Machine

variable {log : List (Event T)} {m m' : Machine T}

theorem step_timersOk (h : TimersOk log m.timers) {ev : Event T} (hstep : Step m ev m') :
    TimersOk (ev :: log) m'.timers := by
  cases hstep with
  | mod ts e => exact h.mod ts e
  | del ts => exact h.del ts
  | enter now => exact ⟨h.nodup, h.mem_iff, h.expireTime, h.sorted⟩
  | fire hround =>
    rcases h.round _ with ⟨ts, a, hsome, -, -, -⟩ | ⟨hnone, -⟩
    · rw [hround.2] at hsome
      obtain ⟨rfl, rfl⟩ := Prod.mk.inj (Option.some.inj hsome)
      exact h.remove fun _ => rfl
    · exact absurd (hround.2.symm.trans hnone) (by simp)
  | leave hround => exact ⟨h.nodup, h.mem_iff, h.expireTime, h.sorted⟩

theorem reach_timersOk (h : Reach log m) : TimersOk log m.timers := by
  induction h with
  | init f => exact ⟨nodup_nil, fun ts => by simp [armed], fun ts a ha => absurd ha (by simp [armed]), .nil⟩
  | step _ hstep ih => exact step_timersOk ih hstep

theorem reach_firesInOrder (h : Reach log m) : FiresInOrder log := by
  induction h with
  | init f =>
    intro later earlier ts now hlog
    simp at hlog
  | @step log m m' ev hreach hstep ih =>
    intro later earlier ts now hlog
    cases later with
    | cons last later => exact ih later earlier ts now (List.cons.inj hlog).2
    | nil =>
      obtain ⟨rfl, rfl⟩ := List.cons.inj hlog
      cases hstep with
      | fire hround =>
        rcases (reach_timersOk hreach).round now with ⟨t, a, hsome, ha, hdue, hfirst⟩ | ⟨hnone, -⟩
        · rw [hround.2] at hsome
          obtain ⟨rfl, -⟩ := Prod.mk.inj (Option.some.inj hsome)
          exact ⟨a, ha, hdue, hfirst⟩
        · exact absurd (hround.2.symm.trans hnone) (by simp)

theorem reach_leavesNoneDue (h : Reach log m) : LeavesNoneDue log := by
  induction h with
  | init f =>
    intro later earlier now hlog
    simp at hlog
  | @step log m m' ev hreach hstep ih =>
    intro later earlier now hlog
    cases later with
    | cons last later => exact ih later earlier now (List.cons.inj hlog).2
    | nil =>
      obtain ⟨rfl, rfl⟩ := List.cons.inj hlog
      cases hstep with
      | leave hround =>
        rcases (reach_timersOk hreach).round now with ⟨t, a, hsome, -, -, -⟩ | ⟨-, hnone⟩
        · exact absurd (hround.2.symm.trans hsome) (by simp)
        · exact hnone

end Machine

/-- While an arming is not cancelled or moved, the timer stays armed until its callback is run. -/
theorem stays_armed {log : List (Event T)} (hfires : FiresInOrder log) (hleaves : LeavesNoneDue log)
    {earlier : List (Event T)} {ts : T} {e : ℤ} (since : List (Event T)) {later : List (Event T)}
    (hlog : log = later ++ (since ++ .mod ts e :: earlier)) (hsince : ∀ ev ∈ since, ¬ ev.Rearms ts) :
    (since.countP (Event.fires ts) = 0 ∧ armed ts (since ++ .mod ts e :: earlier) = some ⟨e, earlier.length⟩ ∧
        ∀ now, .leave now ∈ since → now < e) ∨
      (since.countP (Event.fires ts) = 1 ∧ armed ts (since ++ .mod ts e :: earlier) = none) := by
  induction since generalizing later with
  | nil => exact .inl ⟨rfl, if_pos rfl, fun now hmem => absurd hmem not_mem_nil⟩
  | cons ev since ih =>
    have hih := @ih (later ++ [ev]) (by rw [hlog]; simp) fun ev' h => hsince ev' (mem_cons_of_mem _ h)
    have hkeep := hsince ev mem_cons_self
    rw [countP_cons, cons_append]
    cases ev with
    | mod t e' =>
      rw [armed, if_neg (show ¬ t = ts from hkeep)]
      simpa [Event.fires] using hih
    | del t =>
      rw [armed, if_neg (show ¬ t = ts from hkeep)]
      simpa [Event.fires] using hih
    | enter now =>
      rw [armed]
      simpa [Event.fires] using hih
    | fire t now =>
      rw [armed]
      by_cases ht : t = ts
      · -- the callback of this timer: it was armed, so this is the first time
        obtain ⟨a, ha, -, -⟩ := hfires later (since ++ .mod ts e :: earlier) t now (by rw [hlog]; rfl)
        rw [ht] at ha
        rcases hih with ⟨hzero, -, -⟩ | ⟨-, hnone⟩
        · exact .inr ⟨by simp [hzero, Event.fires, ht], if_pos ht⟩
        · exact absurd (ha.symm.trans hnone) (by simp)
      · rw [if_neg ht]
        simpa [Event.fires, ht] using hih
    | leave now =>
      rw [armed]
      rcases hih with ⟨hzero, harmed, hdue⟩ | hfired
      · refine .inl ⟨by simpa [Event.fires] using hzero, harmed, fun now' hmem => ?_⟩
        rcases mem_cons.1 hmem with heq | hmem'
        · obtain rfl : now' = now := by injection heq
          exact hleaves later (since ++ .mod ts e :: earlier) now' (by rw [hlog]; rfl) ts _ harmed
        · exact hdue now' hmem'
      · exact .inr (by simpa [Event.fires] using hfired)

theorem firesOnce {log : List (Event T)} (hfires : FiresInOrder log) (hleaves : LeavesNoneDue log) : FiresOnce log := by
  intro later since earlier ts e hlog hsince
  rcases stays_armed hfires hleaves since hlog hsince with ⟨hzero, -, hdue⟩ | ⟨hone, -⟩
  · refine ⟨by omega, ?_⟩
    rintro ⟨now, hle, hmem⟩
    exact absurd (hdue now hmem) (by omega)
  · exact ⟨hone.le, fun _ => hone⟩

/-- **Timers fire in order, once and never early**, whatever their callbacks do. -/
theorem Machine.reach_timers {log : List (Event T)} {m : Machine T} (h : Machine.Reach log m) :
    (TimersOk log m.timers ∧ m.timers.activeTimers.Pairwise fun t u => m.timers.expireTime t ≤ m.timers.expireTime u) ∧
      FiresInOrder log ∧ LeavesNoneDue log ∧ FiresOnce log := by
  have hok := reach_timersOk h
  have hfires := reach_firesInOrder h
  have hleaves := reach_leavesNoneDue h
  exact ⟨⟨hok, hok.sorted_expireTime⟩, hfires, hleaves, firesOnce hfires hleaves⟩

/-- Two timers are due; the callback of the first one arms it again and deletes the second. -/
theorem Machine.reach_timers_callback : FiresOnce (T := ℕ)
    [.leave 10, .fire 0 10, .del 1, .mod 0 7, .fire 0 10, .enter 10, .mod 1 10, .mod 0 10] := by
  have hreach : ∃ m, Reach (T := ℕ)
      [.leave 10, .fire 0 10, .del 1, .mod 0 7, .fire 0 10, .enter 10, .mod 1 10, .mod 0 10] m := by
    refine ⟨_, .step (.step (.step (.step (.step (.step (.step (.step (.init fun _ => 0) (.mod _ 0 10))
      (.mod _ 1 10)) (.enter _ 10)) (.fire ⟨rfl, rfl⟩)) (.mod _ 0 7)) (.del _ 1)) (.fire ⟨rfl, rfl⟩))
      (.leave ⟨rfl, rfl⟩)⟩
  obtain ⟨m, hm⟩ := hreach
  exact (reach_timers hm).2.2.2

end Emulator.Timers
