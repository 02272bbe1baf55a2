import Mathlib.Logic.Function.Basic
import Emulator.Memcheck.MMRangeMap

/-!
# Processes and threads of the guest

The handlers of `memcheck_proc_management.c`. Descriptors live at addresses that
`qemu_malloc` gives; a list of descriptors is the list of their addresses, and an address
that has been freed, or never given, leads nowhere. A function returns `none` if it
follows such an address.
-/

namespace Emulator.Memcheck

open Function

structure ThreadCallStackEntry where
  callAddress : ℕ
  callAddressRel : ℕ
  retAddress : ℕ
  retAddressRel : ℕ
  modulePath : String
deriving DecidableEq

/-- `call_stack` is what of it is in use: `call_stack_count` entries. -/
structure ThreadDesc where
  tid : ℕ
  process : ℕ
  callStack : List ThreadCallStackEntry
  callStackMax : ℕ

structure ProcDesc where
  threads : List ℕ
  allocMap : AllocMap
  mmrangeMap : MMRangeMap
  imagePath : Option String
  pid : ℕ
  parentPid : ℕ
  flags : ℕ

/-- The static variables of the module, and the descriptors that are allocated. -/
structure ProcState where
  currentTid : ℕ
  currentThread : Option ℕ
  currentProcess : Option ℕ
  procList : List ℕ
  threadList : List ℕ
  procs : ℕ → Option ProcDesc
  threads : ℕ → Option ThreadDesc

/-- The state after `memcheck_init_proc_management`. -/
def memcheckInitProcManagement : ProcState := ⟨0, none, none, [], [], fun _ => none, fun _ => none⟩

/-- The first of the listed threads with the id. -/
def findThread (st : ProcState) (tid : ℕ) : List ℕ → Option (Option ℕ)
  | [] => some none
  | thread :: list => (st.threads thread).bind fun td =>
    if tid = td.tid then some (some thread) else findThread st tid list

/-- The first of the listed processes with the id. -/
def findProcess (st : ProcState) (pid : ℕ) : List ℕ → Option (Option ℕ)
  | [] => some none
  | proc :: list => (st.procs proc).bind fun pd =>
    if pid = pd.pid then some (some proc) else findProcess st pid list

def getThreadFromTid (st : ProcState) (tid : ℕ) : Option (Option ℕ × ProcState) :=
  if tid = st.currentTid ∧ st.currentThread ≠ none then some (st.currentThread, st)
  else (findThread st tid st.threadList).map fun thread =>
    (thread, if thread ≠ none ∧ tid = st.currentTid then { st with currentThread := thread } else st)

def getCurrentThread (st : ProcState) : Option (Option ℕ × ProcState) :=
  match st.currentThread with
  | some thread => some (some thread, st)
  | none => (findThread st st.currentTid st.threadList).map fun thread => (thread, { st with currentThread := thread })

def getProcessFromTid (st : ProcState) (tid : ℕ) : Option (Option ℕ × ProcState) :=
  (getThreadFromTid st tid).bind fun (thread, st) =>
    match thread with
    | none => some (none, st)
    | some thread => (st.threads thread).map fun td => (some td.process, st)

/-- The process of the cached thread, if it has the id. -/
def cachedProcess (st : ProcState) (pid : ℕ) : Option (Option ℕ) :=
  match st.currentThread with
  | none => some none
  | some thread => (st.threads thread).bind fun td => (st.procs td.process).map fun pd =>
    if pd.pid = pid then some td.process else none

def getProcessFromPid (st : ProcState) (pid : ℕ) : Option (Option ℕ × ProcState) :=
  (cachedProcess st pid).bind fun cached =>
    match cached with
    | some proc => some (some proc, { st with currentProcess := some proc })
    | none => (findProcess st pid st.procList).map fun proc => (proc, st)

def getCurrentProcess (st : ProcState) : Option (Option ℕ × ProcState) :=
  match st.currentProcess with
  | some proc => some (some proc, st)
  | none => (getCurrentThread st).bind fun (thread, st) =>
    match thread with
    | none => some (none, st)
    | some thread => (st.threads thread).map fun td => (some td.process, { st with currentProcess := some td.process })

/-- `thread` is the address of the new descriptor. -/
def createNewThread (st : ProcState) (proc tid thread : ℕ) : Option ProcState :=
  (st.procs proc).map fun pd => { st with
    threads := update st.threads thread (some ⟨tid, proc, [], 0⟩)
    threadList := thread :: st.threadList
    procs := update st.procs proc (some { pd with threads := thread :: pd.threads }) }

def mdescFlagTransitionEntry : ℕ := 1

def mdescFlagInheritedOnFork : ℕ := 2

variable (R : Rebalance MallocDescEx) (Q : Rebalance MMRangeDesc)

/-- The maps that a forked process inherits. -/
def inheritMaps (parent : ProcDesc) : Option (AllocMap × MMRangeMap) :=
  (allocmapCopy R Tree.leaf mdescFlagInheritedOnFork mdescFlagTransitionEntry parent.allocMap.toList).bind fun allocs =>
    (mmrangemapCopy Q Tree.leaf parent.mmrangeMap.toList).map fun ranges => (allocs, ranges)

/-- The main thread is created, and the process is listed. -/
def listProcess (st : ProcState) (pid proc thread : ℕ) : Option (Option ℕ × ProcState) :=
  (createNewThread st proc pid thread).map fun st => (some proc, { st with procList := proc :: st.procList })

/-- `proc` and `thread` are the addresses of the new descriptors. -/
def createNewProcess (st : ProcState) (pid parentPid proc thread : ℕ) : Option (Option ℕ × ProcState) :=
  let st := { st with
    procs := update st.procs proc (some ⟨[], Tree.leaf, Tree.leaf, none, pid, parentPid, 0⟩) }
  let free := fun (st : ProcState) => { st with procs := update st.procs proc none }
  if parentPid = 0 then listProcess st pid proc thread
  else (getProcessFromPid st parentPid).bind fun (parent, st) =>
    match parent with
    | none => some (none, free st)
    | some parent => (st.procs parent).bind fun pd =>
      match inheritMaps R Q pd with
      | none => some (none, free st)
      | some (allocs, ranges) =>
        let desc := some ⟨[], allocs, ranges, none, pid, parentPid, 0⟩
        listProcess { st with procs := update st.procs proc desc } pid proc thread

def procdescSetImagePath (pd : ProcDesc) (imagePath : Option String) (setFlagsOnReplace : ℕ) : ProcDesc :=
  match imagePath with
  | none => pd
  | some path =>
    if pd.imagePath = some path then pd
    else { pd with imagePath := some path, flags := pd.flags ||| setFlagsOnReplace }

def memcheckInitPid (st : ProcState) (newPid proc thread : ℕ) : Option ProcState :=
  (createNewProcess R Q st newPid 0 proc thread).map Prod.snd

def memcheckSwitch (st : ProcState) (tid : ℕ) : ProcState :=
  { st with currentThread := none, currentProcess := none, currentTid := tid }

/-- The process that `memcheck_fork` and `memcheck_clone` are about. -/
def parentProcess (st : ProcState) (tgid newId : ℕ) : Option (Option ℕ × ProcState) :=
  if newId = tgid then getCurrentProcess st else getProcessFromTid st tgid

/-- Both handlers compare the parent with the current process, which has to be there. -/
def compareWithCurrent (st : ProcState) (parent : ℕ) : Option (ProcDesc × ProcState) :=
  (st.procs parent).bind fun pd => (getCurrentProcess st).bind fun (current, st) =>
    current.bind fun current => (st.procs current).map fun _ => (pd, st)

def memcheckFork (st : ProcState) (tgid newPid proc thread : ℕ) : Option ProcState :=
  (parentProcess st tgid newPid).bind fun (parent, st) =>
    match parent with
    | none => some st
    | some parent => (compareWithCurrent st parent).bind fun (pd, st) =>
      (createNewProcess R Q st newPid pd.pid proc thread).bind fun (newProc, st) =>
        match newProc with
        | none => some st
        | some newProc => (st.procs parent).bind fun pd => (st.procs newProc).map fun npd =>
          { st with procs := update st.procs newProc (some (procdescSetImagePath npd pd.imagePath 0)) }

def memcheckClone (st : ProcState) (tgid newTid thread : ℕ) : Option ProcState :=
  (parentProcess st tgid newTid).bind fun (parent, st) =>
    match parent with
    | none => some st
    | some parent => (compareWithCurrent st parent).bind fun (_, st) => createNewThread st parent newTid thread

/-- The exiting thread is unlisted and freed, and its process with it if it was the last one. -/
def memcheckExit (st : ProcState) : Option ProcState :=
  (getCurrentThread st).bind fun (thread, st) =>
    match thread with
    | none => some st
    | some thread => (st.threads thread).bind fun td => (st.procs td.process).map fun pd =>
      let left := pd.threads.erase thread
      let st := { st with
        currentThread := none
        threadList := st.threadList.erase thread
        threads := update st.threads thread none
        procs := update st.procs td.process (some { pd with threads := left }) }
      if left ≠ [] then st
      else { st with
        currentProcess := none
        procList := st.procList.erase td.process
        procs := update st.procs td.process none }

def procFlagExecuting : ℕ := 1

def procdescIsExecuting (pd : ProcDesc) : Bool := pd.flags &&& procFlagExecuting ≠ 0

/-- `grow_by` and `max_stack`. -/
def maxStack : ℕ := 32

def callStackEntry (rdesc : MMRangeDesc) (fromPc ret : ℕ) : ThreadCallStackEntry :=
  ⟨fromPc, mmrangedescGetModuleOffset rdesc fromPc, ret, mmrangedescGetModuleOffset rdesc ret, rdesc.path⟩

/-- The thread after a call that is made in a mapped module. -/
def pushCall (td : ThreadDesc) (entry : ThreadCallStackEntry) : ThreadDesc :=
  if maxStack ≤ td.callStack.length then td
  else { td with
    callStack := td.callStack ++ [entry]
    callStackMax := if td.callStackMax ≤ td.callStack.length then td.callStackMax + maxStack else td.callStackMax }

/-- The entries below the last one with the return address. -/
def popTo (ret : ℕ) : List ThreadCallStackEntry → Option (List ThreadCallStackEntry)
  | [] => none
  | entry :: stack =>
    match popTo ret stack with
    | some below => some (entry :: below)
    | none => if entry.retAddress = ret then some [] else none

/-- `f` is applied to the current thread if there is one and its process executes. -/
def onCurrentThread (st : ProcState) (f : ProcDesc → ThreadDesc → ThreadDesc) : Option ProcState :=
  (getCurrentThread st).bind fun (thread, st) =>
    match thread with
    | none => some st
    | some thread => (st.threads thread).bind fun td => (st.procs td.process).map fun pd =>
      if ¬ procdescIsExecuting pd then st
      else { st with threads := update st.threads thread (some (f pd td)) }

def memcheckOnCall (st : ProcState) (fromPc ret : ℕ) : Option ProcState :=
  onCurrentThread st fun pd td =>
    match procdescFindMapentry pd.mmrangeMap fromPc with
    | none => td
    | some rdesc => pushCall td (callStackEntry rdesc fromPc ret)

def memcheckOnRet (st : ProcState) (ret : ℕ) : Option ProcState :=
  onCurrentThread st fun _ td => { td with callStack := (popTo ret td.callStack).getD td.callStack }

end Emulator.Memcheck
