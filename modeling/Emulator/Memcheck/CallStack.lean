import Emulator.Memcheck.Process

/-!
# The recorded call stack

`memcheck_on_call` records at most 32 open calls and drops the others, and
`memcheck_on_ret` looks for the return address among the recorded ones. A return from a
call that was dropped finds its address there if an older call has the same one, and pops
calls that are still open.

* `callStack_iff`: the recorded calls are the oldest open calls after every event exactly
  if no return from a dropped call has the return address of a recorded one.
-/

namespace Emulator.Memcheck

open List Option

inductive CallEvent where
  | call (fromPc ret : ℕ)
  | ret (addr : ℕ)

/-- The open calls after the event, the oldest one first; `none` if it is a return that matches no open call. -/
def CallEvent.opened (stack : List (ℕ × ℕ)) : CallEvent → Option (List (ℕ × ℕ))
  | call fromPc retPc => some (stack ++ [(fromPc, retPc)])
  | ret addr => if stack.getLast?.map Prod.snd = some addr then some stack.dropLast else none

/-- The open calls after a trace; `none` if it is not well nested. -/
def openCalls (trace : List CallEvent) : Option (List (ℕ × ℕ)) :=
  trace.foldl (fun stack ev => stack.bind fun stack => ev.opened stack) (some [])

/-- The handler of the event. -/
def CallEvent.run (st : ProcState) : CallEvent → Option ProcState
  | call fromPc retPc => memcheckOnCall st fromPc retPc
  | ret addr => memcheckOnRet st addr

/-- The state after a trace. -/
def callRun (st : ProcState) (trace : List CallEvent) : Option ProcState :=
  trace.foldl (fun st ev => st.bind fun st => ev.run st) (some st)

theorem openCalls_append (trace : List CallEvent) (ev : CallEvent) :
    openCalls (trace ++ [ev]) = (openCalls trace).bind fun stack => ev.opened stack := by
  unfold openCalls
  rw [foldl_append]
  rfl

theorem callRun_append (st : ProcState) (trace : List CallEvent) (ev : CallEvent) :
    callRun st (trace ++ [ev]) = (callRun st trace).bind fun st => ev.run st := by
  unfold callRun
  rw [foldl_append]
  rfl

/-- The thread at `p` is the current one, and the process at `q`, whose descriptor is `pd`, executes it. -/
structure Executes (st : ProcState) (p q : ℕ) (pd : ProcDesc) (td : ThreadDesc) : Prop where
  current : ∃ st', getCurrentThread st = some (some p, st')
  thread : st.threads p = some td
  process : td.process = q
  proc : st.procs q = some pd
  executing : procdescIsExecuting pd = true

/-- The frame of an open call that was made in a mapped module. -/
def frame (map : MMRangeMap) (call : ℕ × ℕ) : ThreadCallStackEntry :=
  callStackEntry ((procdescFindMapentry map call.1).getD (searchedRange 0 0)) call.1 call.2

/-- The thread after an event. -/
def CallEvent.thread (map : MMRangeMap) (td : ThreadDesc) : CallEvent → ThreadDesc
  | call fromPc retPc =>
    match procdescFindMapentry map fromPc with
    | none => td
    | some rdesc => pushCall td (callStackEntry rdesc fromPc retPc)
  | ret addr => { td with callStack := (popTo addr td.callStack).getD td.callStack }

theorem getCurrentThread_cached {st st' : ProcState} {p : ℕ} (h : getCurrentThread st = some (some p, st')) :
    st'.currentThread = some p ∧ st'.threads = st.threads ∧ st'.procs = st.procs := by
  unfold getCurrentThread at h
  split at h
  · rename_i p' hc
    obtain ⟨h1, rfl⟩ := Prod.mk.inj (Option.some.inj h)
    exact ⟨hc.trans h1, rfl, rfl⟩
  · obtain ⟨r, -, hr⟩ := map_eq_some_iff.1 h
    obtain ⟨rfl, rfl⟩ := Prod.mk.inj hr
    exact ⟨rfl, rfl, rfl⟩

theorem pushCall_process (td : ThreadDesc) (entry : ThreadCallStackEntry) :
    (pushCall td entry).process = td.process := by
  unfold pushCall
  split_ifs <;> rfl

theorem thread_process (map : MMRangeMap) (td : ThreadDesc) (ev : CallEvent) :
    (ev.thread map td).process = td.process := by
  cases ev with
  | call fromPc ret =>
    unfold CallEvent.thread
    simp only
    split
    · rfl
    · exact pushCall_process ..
  | ret addr => rfl

/-- The handler changes the current thread and nothing else. -/
theorem onCurrentThread_eq {st : ProcState} {p q : ℕ} {pd : ProcDesc} {td : ThreadDesc} (h : Executes st p q pd td)
    (f : ProcDesc → ThreadDesc → ThreadDesc) (hf : (f pd td).process = q) :
    ∃ st', onCurrentThread st f = some st' ∧ Executes st' p q pd (f pd td) := by
  obtain ⟨st₁, h₁⟩ := h.current
  obtain ⟨hc, ht, hp⟩ := getCurrentThread_cached h₁
  refine ⟨{ st₁ with threads := Function.update st₁.threads p (some (f pd td)) }, ?_, ?_, ?_, hf, ?_, h.executing⟩
  · unfold onCurrentThread
    simp only [h₁, ht, hp, h.thread, h.process, h.proc, bind_some, map_some, h.executing,
      not_true_eq_false, if_false]
  · unfold getCurrentThread
    simp only [hc]
    exact ⟨_, rfl⟩
  · exact Function.update_self ..
  · rw [← h.proc, ← hp]

theorem run_executes {st : ProcState} {p q : ℕ} {pd : ProcDesc} {td : ThreadDesc} (h : Executes st p q pd td)
    (ev : CallEvent) : ∃ st', ev.run st = some st' ∧ Executes st' p q pd (ev.thread pd.mmrangeMap td) := by
  have hproc := (thread_process pd.mmrangeMap td ev).trans h.process
  cases ev with
  | call fromPc ret =>
    exact onCurrentThread_eq h (fun pd td => CallEvent.thread pd.mmrangeMap td (.call fromPc ret)) hproc
  | ret addr => exact onCurrentThread_eq h (fun pd td => CallEvent.thread pd.mmrangeMap td (.ret addr)) hproc

theorem popTo_append (l : List ThreadCallStackEntry) (e : ThreadCallStackEntry) :
    popTo e.retAddress (l ++ [e]) = some l := by
  induction l with
  | nil => simp [popTo]
  | cons a l ih => simp [popTo, ih]

theorem popTo_eq_none_iff (ret : ℕ) (l : List ThreadCallStackEntry) :
    popTo ret l = none ↔ ∀ e ∈ l, e.retAddress ≠ ret := by
  induction l with
  | nil => simp [popTo]
  | cons a l ih =>
    unfold popTo
    rcases hp : popTo ret l with _ | below
    · have hl := ih.1 hp
      simp only [ite_eq_right_iff, reduceCtorEq, imp_false, mem_cons, forall_eq_or_imp]
      exact ⟨fun ha => ⟨ha, hl⟩, fun ha => ha.1⟩
    · have hl := ih.not.1 (by rw [hp]; simp)
      simp only [reduceCtorEq, mem_cons, forall_eq_or_imp, false_iff, not_and]
      exact fun _ => hl

theorem popTo_length {ret : ℕ} {l below : List ThreadCallStackEntry} (h : popTo ret l = some below) :
    below.length < l.length := by
  induction l generalizing below with
  | nil => exact absurd h (by simp [popTo])
  | cons a l ih =>
    unfold popTo at h
    rcases hp : popTo ret l with _ | below'
    · rw [hp] at h
      simp only at h
      split_ifs at h
      rw [← Option.some.inj h]
      simp
    · rw [hp] at h
      rw [← Option.some.inj h]
      simpa using ih hp

/-- The recorded frames are those of the oldest open calls. -/
def Records (map : MMRangeMap) (td : ThreadDesc) (stack : List (ℕ × ℕ)) : Prop :=
  td.callStack = (stack.take maxStack).map (frame map)

variable {map : MMRangeMap} {td : ThreadDesc} {stack : List (ℕ × ℕ)}

theorem call_records (h : Records map td stack) {fromPc ret : ℕ} {rdesc : MMRangeDesc}
    (hm : procdescFindMapentry map fromPc = some rdesc) :
    Records map (CallEvent.thread map td (.call fromPc ret)) (stack ++ [(fromPc, ret)]) := by
  have hlen : td.callStack.length = min maxStack stack.length := by
    rw [h]
    simp
  have hframe : frame map (fromPc, ret) = callStackEntry rdesc fromPc ret := by
    unfold frame
    rw [hm]
    rfl
  unfold CallEvent.thread
  simp only [hm]
  unfold pushCall Records
  split
  · rename_i hfull
    rw [h, take_append_of_le_length (by omega)]
  · rename_i hfull
    simp only
    rw [h, take_of_length_le (l := stack) (by omega), take_of_length_le (by simp; omega), map_append,
      map_singleton, hframe]

/-- A return: the record is right again if the call was recorded or no recorded call has its return address, and
else too short. -/
theorem ret_records_iff {call : ℕ × ℕ} (h : Records map td (stack ++ [call])) :
    Records map (CallEvent.thread map td (.ret call.2)) stack ↔
      (maxStack ≤ stack.length → ∀ c ∈ stack.take maxStack, c.2 ≠ call.2) := by
  unfold Records at h
  by_cases hlen : maxStack ≤ stack.length
  · rw [take_append_of_le_length hlen] at h
    have hret : (∀ e ∈ td.callStack, e.retAddress ≠ call.2) ↔ ∀ c ∈ stack.take maxStack, c.2 ≠ call.2 := by
      rw [h]
      exact List.forall_mem_map
    unfold CallEvent.thread Records
    simp only [hlen, forall_const]
    rw [← hret, ← popTo_eq_none_iff]
    rcases hp : popTo call.2 td.callStack with _ | below
    · simpa using h
    · -- a frame that is still open has been popped
      have h1 := popTo_length hp
      have h2 : (stack.take maxStack).length = maxStack := by
        rw [length_take]
        omega
      rw [← h]
      simp only [getD_some, reduceCtorEq, iff_false]
      intro heq
      rw [heq] at h1
      omega
  · rw [take_of_length_le (by simp; omega), map_append, map_singleton] at h
    have hpop := popTo_append (stack.map (frame map)) (frame map call)
    rw [← h, show (frame map call).retAddress = call.2 from rfl] at hpop
    unfold CallEvent.thread Records
    simp only [hlen, false_imp_iff, iff_true]
    rw [hpop, getD_some, take_of_length_le (by omega)]

/-- After the trace the thread at `p` has recorded the oldest open calls. -/
def RecordedAfter (st : ProcState) (p : ℕ) (map : MMRangeMap) (trace : List CallEvent) : Prop :=
  ∃ st' td stack, callRun st trace = some st' ∧ st'.threads p = some td ∧ openCalls trace = some stack ∧
    Records map td stack

/-- A return from a call that was dropped has the return address of no recorded call. -/
def CallEvent.Clear (stack : List (ℕ × ℕ)) : CallEvent → Prop
  | call _ _ => True
  | ret addr => maxStack < stack.length → ∀ c ∈ stack.take maxStack, c.2 ≠ addr

/-- Every event of the trace is clear among the calls that are open then. -/
def ReturnsClear (trace : List CallEvent) : Prop :=
  ∀ pre ev post stack, trace = pre ++ ev :: post → openCalls pre = some stack → ev.Clear stack

/-- A trace of one executing thread whose calls are all made in mapped modules. -/
def InModules (map : MMRangeMap) (trace : List CallEvent) : Prop :=
  ∀ fromPc retPc, .call fromPc retPc ∈ trace → procdescFindMapentry map fromPc ≠ none

theorem callRun_executes {st : ProcState} {p q : ℕ} {pd : ProcDesc} {td : ThreadDesc} (h : Executes st p q pd td)
    (trace : List CallEvent) : ∃ st' td', callRun st trace = some st' ∧ Executes st' p q pd td' := by
  induction trace using List.reverseRecOn with
  | nil => exact ⟨st, td, rfl, h⟩
  | append_singleton trace ev ih =>
    obtain ⟨st₁, td₁, h₁, he₁⟩ := ih
    obtain ⟨st₂, h₂, he₂⟩ := run_executes he₁ ev
    refine ⟨st₂, _, ?_, he₂⟩
    rw [callRun_append, h₁]
    exact h₂

theorem opened_ret {stack stack' : List (ℕ × ℕ)} {addr : ℕ} (h : CallEvent.opened stack (.ret addr) = some stack') :
    ∃ call, stack = stack' ++ [call] ∧ call.2 = addr := by
  unfold CallEvent.opened at h
  simp only at h
  split_ifs at h with hlast
  obtain ⟨call, hcall, rfl⟩ := map_eq_some_iff.1 hlast
  refine ⟨call, ?_, rfl⟩
  rw [← Option.some.inj h, dropLast_append_getLast? call hcall]

/-- **One event** keeps the record right exactly if it is clear. -/
theorem thread_records_iff {stack' : List (ℕ × ℕ)} {ev : CallEvent} (h : Records map td stack)
    (hmod : ∀ fromPc retPc, ev = .call fromPc retPc → procdescFindMapentry map fromPc ≠ none)
    (hopen : ev.opened stack = some stack') : Records map (ev.thread map td) stack' ↔ ev.Clear stack := by
  cases ev with
  | call fromPc retPc =>
    obtain ⟨rdesc, hr⟩ := ne_none_iff_exists'.1 (hmod fromPc retPc rfl)
    obtain rfl := Option.some.inj hopen
    exact iff_of_true (call_records h hr) trivial
  | ret addr =>
    obtain ⟨call, rfl, rfl⟩ := opened_ret hopen
    rw [ret_records_iff h]
    unfold CallEvent.Clear
    simp only [length_append, length_singleton, Nat.lt_succ_iff]
    refine imp_congr_right fun hlen => ?_
    rw [take_append_of_le_length hlen]

variable {trace : List CallEvent}

theorem returnsClear_append {ev : CallEvent} {stack : List (ℕ × ℕ)}
    (h : openCalls trace = some stack) : ReturnsClear (trace ++ [ev]) ↔ ReturnsClear trace ∧ ev.Clear stack := by
  constructor
  · intro hc
    refine ⟨fun pre ev' post stack' heq => ?_, hc trace ev [] stack rfl h⟩
    exact hc pre ev' (post ++ [ev]) stack' (by rw [heq]; simp)
  · rintro ⟨hc, hev⟩ pre ev' post stack' heq hpre
    rcases eq_nil_or_concat post with rfl | ⟨post', last, rfl⟩
    · obtain ⟨rfl, hlast⟩ := append_inj' heq rfl
      obtain rfl := singleton_inj.1 hlast
      rwa [← Option.some.inj (h.symm.trans hpre)]
    · rw [concat_eq_append, ← cons_append, ← append_assoc] at heq
      exact hc pre ev' post' stack' (append_inj' heq rfl).1 hpre

theorem openCalls_length_le {stack : List (ℕ × ℕ)} (h : openCalls trace = some stack) :
    stack.length ≤ trace.length := by
  induction trace using List.reverseRecOn generalizing stack with
  | nil =>
    obtain rfl := Option.some.inj h
    exact Nat.le_refl _
  | append_singleton trace ev ih =>
    obtain ⟨stack₁, h₁, hopen⟩ := bind_eq_some_iff.1 ((openCalls_append trace ev).symm.trans h)
    have hlen := ih h₁
    cases ev with
    | call fromPc retPc =>
      obtain rfl := Option.some.inj hopen
      simpa using hlen
    | ret addr =>
      obtain ⟨call, rfl, -⟩ := opened_ret hopen
      simp at hlen ⊢
      omega

theorem returnsClear_of_length_le (h : trace.length ≤ maxStack) : ReturnsClear trace := by
  rintro pre ev post stack rfl hpre
  have hlen := openCalls_length_le hpre
  cases ev with
  | call fromPc retPc => trivial
  | ret addr =>
    intro hdeep
    simp at h
    omega

/-- **The recorded call stack is the oldest part of the real one** after every event of a well-nested trace, exactly if
no return from a dropped call has the return address of a recorded one. -/
theorem callStack_iff {st : ProcState} {p q : ℕ} {pd : ProcDesc} {td : ThreadDesc} {trace : List CallEvent}
    (h : Executes st p q pd td) (hempty : td.callStack = []) (hmods : InModules pd.mmrangeMap trace)
    (hnest : openCalls trace ≠ none) :
    (∀ pre, pre <+: trace → RecordedAfter st p pd.mmrangeMap pre) ↔ ReturnsClear trace := by
  induction trace using List.reverseRecOn with
  | nil =>
    refine iff_of_true (fun pre hpre => ?_) fun pre ev post stack heq => absurd heq (by simp)
    obtain rfl := prefix_nil.1 hpre
    exact ⟨st, td, [], rfl, h.thread, rfl, by simpa [Records] using hempty⟩
  | append_singleton trace ev ih =>
    obtain ⟨stack', hstack'⟩ := ne_none_iff_exists'.1 hnest
    obtain ⟨stack, hstack, hopen⟩ := bind_eq_some_iff.1 ((openCalls_append trace ev).symm.trans hstack')
    have hih := ih (fun fromPc retPc hm => hmods fromPc retPc (mem_append_left _ hm)) (by simp [hstack])
    obtain ⟨st₁, td₁, h₁, he₁⟩ := callRun_executes h trace
    obtain ⟨st₂, h₂, he₂⟩ := run_executes he₁ ev
    have hrun : callRun st (trace ++ [ev]) = some st₂ := by
      rw [callRun_append, h₁]
      exact h₂
    have hstep : RecordedAfter st p pd.mmrangeMap trace →
        (RecordedAfter st p pd.mmrangeMap (trace ++ [ev]) ↔ ev.Clear stack) := by
      rintro ⟨_, _, _, hr, ht, ho, hrec⟩
      obtain rfl := Option.some.inj (h₁.symm.trans hr)
      obtain rfl := Option.some.inj (he₁.thread.symm.trans ht)
      obtain rfl := Option.some.inj (hstack.symm.trans ho)
      rw [← thread_records_iff hrec (fun f r he => hmods f r (by simp [he])) hopen]
      constructor
      · rintro ⟨_, _, _, hr', ht', ho', hrec'⟩
        obtain rfl := Option.some.inj (hrun.symm.trans hr')
        obtain rfl := Option.some.inj (he₂.thread.symm.trans ht')
        obtain rfl := Option.some.inj (hstack'.symm.trans ho')
        exact hrec'
      · exact fun hrec' => ⟨st₂, _, stack', hrun, he₂.thread, hstack', hrec'⟩
    rw [returnsClear_append hstack, ← hih]
    constructor
    · intro hall
      have hpre := fun pre (hpre : pre <+: trace) => hall pre (hpre.trans (prefix_append _ _))
      exact ⟨hpre, (hstep (hpre trace (prefix_refl _))).1 (hall _ (prefix_refl _))⟩
    · rintro ⟨hall, hclear⟩ pre hpre
      rcases prefix_concat_iff.1 (by simpa using hpre) with rfl | hpre
      · exact (hstep (hall trace (prefix_refl _))).2 hclear
      · exact hall pre hpre

/-- A process with one thread and one mapped module that executes. -/
def oneThread : ProcState where
  currentTid := 5
  currentThread := none
  currentProcess := none
  procList := [0]
  threadList := [0]
  procs proc := if proc = 0 then some ⟨[0], .leaf, moduleMap, some "/system/bin/app", 5, 1, procFlagExecuting⟩ else none
  threads thread := if thread = 0 then some ⟨5, 0, [], 0⟩ else none
where
  moduleMap := memcheckMmapExepath .spine .leaf 0x8000 0x9000 0 "/system/bin/app"

theorem oneThread_executes : Executes oneThread 0 0
    ⟨[0], .leaf, oneThread.moduleMap, some "/system/bin/app", 5, 1, procFlagExecuting⟩ ⟨5, 0, [], 0⟩ :=
  ⟨⟨_, rfl⟩, rfl, rfl, rfl, by decide⟩

/-- A function calls itself, returns and calls itself again. -/
theorem callStack_recursion : RecordedAfter oneThread 0 oneThread.moduleMap
    [.call 0x8004 0x8008, .call 0x8024 0x8028, .ret 0x8028, .call 0x8024 0x8028] := by
  refine (callStack_iff oneThread_executes rfl ?_ (by decide)).2 ?_ _ (prefix_refl _)
  · intro fromPc retPc h
    obtain ⟨rfl, rfl⟩ | ⟨rfl, rfl⟩ : fromPc = 0x8004 ∧ retPc = 0x8008 ∨ fromPc = 0x8024 ∧ retPc = 0x8028 := by
      simpa using h
    all_goals decide
  · exact returnsClear_of_length_le (by decide)

/-- The recursion that is one call too deep: the return from it pops a call that is still open. -/
theorem callStack_deep : openCalls (List.replicate 33 (.call 0x8024 0x8028) ++ [.ret 0x8028]) ≠ none ∧
    InModules oneThread.moduleMap (List.replicate 33 (.call 0x8024 0x8028) ++ [.ret 0x8028]) ∧
    ¬ RecordedAfter oneThread 0 oneThread.moduleMap (List.replicate 33 (.call 0x8024 0x8028) ++ [.ret 0x8028]) := by
  refine ⟨by decide, fun fromPc retPc h => ?_, ?_⟩
  · obtain ⟨rfl, rfl⟩ : fromPc = 0x8024 ∧ retPc = 0x8028 := by simpa using h
    decide
  · rintro ⟨st, td, stack, h1, h2, h3, h4⟩
    have hrec : (callRun oneThread (List.replicate 33 (.call 0x8024 0x8028) ++ [.ret 0x8028])).bind
        (fun st => (st.threads 0).map (·.callStack.length)) = some 31 := by decide +kernel
    have hopen : (openCalls (List.replicate 33 (.call 0x8024 0x8028) ++ [.ret 0x8028])).map List.length = some 32 := by
      decide +kernel
    rw [h1, bind_some, h2, map_some, h4] at hrec
    rw [h3] at hopen
    simp [maxStack] at hrec hopen
    omega

end Emulator.Memcheck
