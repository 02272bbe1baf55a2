import Emulator.Memcheck.Process

/-!
# The tables of processes and threads stay consistent

`ProcInv` ties the two global lists, the thread lists of the processes and the cached
descriptors together. Every handler keeps it, and a handler that finds it never follows an
address that has been freed.

* `process_tables_consistent`: so it is after every sequence of events.
-/

namespace Emulator.Memcheck

open Function List Option

/-- The process at `q` is there, and its threads are listed. -/
def ProcOk (st : ProcState) (q : ℕ) : Prop :=
  ∃ pd, st.procs q = some pd ∧ pd.threads ≠ [] ∧ pd.threads.Nodup ∧
    ∀ p ∈ pd.threads, p ∈ st.threadList ∧ ∃ td, st.threads p = some td ∧ td.process = q

/-- The thread at `p` is there, and its process is listed and has it. -/
def ThreadOk (st : ProcState) (p : ℕ) : Prop :=
  ∃ td, st.threads p = some td ∧ td.process ∈ st.procList ∧ ∃ pd, st.procs td.process = some pd ∧ p ∈ pd.threads

structure ProcInv (st : ProcState) : Prop where
  procs : ∀ q ∈ st.procList, ProcOk st q
  threads : ∀ p ∈ st.threadList, ThreadOk st p
  procNodup : st.procList.Nodup
  threadNodup : st.threadList.Nodup
  currentThread : ∀ p, st.currentThread = some p →
    p ∈ st.threadList ∧ ∃ td, st.threads p = some td ∧ td.tid = st.currentTid
  currentProcess : ∀ q, st.currentProcess = some q → q ∈ st.procList

/-- `st'` differs from `st` in the cached descriptors only. -/
def CachesOnly (st st' : ProcState) : Prop :=
  st' = { st with currentThread := st'.currentThread, currentProcess := st'.currentProcess }

theorem CachesOnly.refl (st : ProcState) : CachesOnly st st := rfl

theorem CachesOnly.trans {st st' st'' : ProcState} (h : CachesOnly st st') (h' : CachesOnly st' st'') :
    CachesOnly st st'' := by
  unfold CachesOnly at h
  unfold CachesOnly at h' ⊢
  rw [h'] at *
  rw [h]

variable {st st' : ProcState}

theorem CachesOnly.procs (h : CachesOnly st st') : st'.procs = st.procs := by rw [h]

theorem CachesOnly.threads (h : CachesOnly st st') : st'.threads = st.threads := by rw [h]

theorem CachesOnly.procList (h : CachesOnly st st') : st'.procList = st.procList := by rw [h]

theorem CachesOnly.threadList (h : CachesOnly st st') : st'.threadList = st.threadList := by rw [h]

theorem ProcInv.setThread (h : ProcInv st) {p : ℕ}
    (hp : p ∈ st.threadList ∧ ∃ td, st.threads p = some td ∧ td.tid = st.currentTid) :
    ProcInv { st with currentThread := some p } :=
  ⟨h.procs, h.threads, h.procNodup, h.threadNodup, fun _ heq => Option.some.inj heq ▸ hp, h.currentProcess⟩

theorem ProcInv.setProcess (h : ProcInv st) {q : ℕ} (hq : q ∈ st.procList) :
    ProcInv { st with currentProcess := some q } :=
  ⟨h.procs, h.threads, h.procNodup, h.threadNodup, h.currentThread, fun _ heq => Option.some.inj heq ▸ hq⟩

theorem findThread_ok (tid : ℕ) {list : List ℕ} (hl : ∀ p ∈ list, ∃ td, st.threads p = some td) :
    ∃ r, findThread st tid list = some r ∧
      ∀ p, r = some p → p ∈ list ∧ ∃ td, st.threads p = some td ∧ td.tid = tid := by
  induction list with
  | nil => exact ⟨none, rfl, fun p hp => absurd hp (by simp)⟩
  | cons a list ih =>
    obtain ⟨td, htd⟩ := hl a (mem_cons_self ..)
    unfold findThread
    rw [htd, bind_some]
    split_ifs with heq
    · refine ⟨some a, rfl, fun p hp => ?_⟩
      obtain rfl := Option.some.inj hp
      exact ⟨mem_cons_self .., td, htd, heq.symm⟩
    · obtain ⟨r, hr, hrp⟩ := ih fun p hp => hl p (mem_cons_of_mem _ hp)
      exact ⟨r, hr, fun p hp => ⟨mem_cons_of_mem _ (hrp p hp).1, (hrp p hp).2⟩⟩

theorem findProcess_ok (pid : ℕ) {list : List ℕ} (hl : ∀ q ∈ list, ∃ pd, st.procs q = some pd) :
    ∃ r, findProcess st pid list = some r ∧ ∀ q, r = some q → q ∈ list := by
  induction list with
  | nil => exact ⟨none, rfl, fun p hp => absurd hp (by simp)⟩
  | cons a list ih =>
    obtain ⟨pd, hpd⟩ := hl a (mem_cons_self ..)
    unfold findProcess
    rw [hpd, bind_some]
    split_ifs with heq
    · exact ⟨some a, rfl, fun q hq => Option.some.inj hq ▸ mem_cons_self ..⟩
    · obtain ⟨r, hr, hrq⟩ := ih fun q hq => hl q (mem_cons_of_mem _ hq)
      exact ⟨r, hr, fun q hq => mem_cons_of_mem _ (hrq q hq)⟩

theorem ProcInv.thread_live (h : ProcInv st) : ∀ p ∈ st.threadList, ∃ td, st.threads p = some td :=
  fun p hp => (h.threads p hp).imp fun _ htd => htd.1

theorem ProcInv.proc_live (h : ProcInv st) : ∀ q ∈ st.procList, ∃ pd, st.procs q = some pd :=
  fun q hq => (h.procs q hq).imp fun _ hpd => hpd.1

/-- A lookup in a consistent state: what it finds is listed, and only the caches change. -/
structure Found (st : ProcState) (list : List ℕ) (r : Option ℕ) (st' : ProcState) : Prop where
  inv : ProcInv st'
  only : CachesOnly st st'
  listed : ∀ p, r = some p → p ∈ list

theorem getCurrentThread_ok (h : ProcInv st) :
    ∃ r st', getCurrentThread st = some (r, st') ∧ Found st st.threadList r st' ∧ st'.currentThread = r := by
  unfold getCurrentThread
  rcases hc : st.currentThread with _ | p
  · obtain ⟨r, hr, hrp⟩ := findThread_ok st.currentTid h.thread_live
    refine ⟨r, { st with currentThread := r }, by simp only [hr]; rfl, ⟨?_, rfl, fun p hp => (hrp p hp).1⟩, rfl⟩
    rcases r with _ | p
    · exact hc ▸ h
    · exact h.setThread (hrp p rfl)
  · exact ⟨some p, st, rfl, ⟨h, .refl st, fun p' hp' => (h.currentThread p' (hc.trans hp')).1⟩, hc⟩

theorem getThreadFromTid_ok (h : ProcInv st) (tid : ℕ) :
    ∃ r st', getThreadFromTid st tid = some (r, st') ∧ Found st st.threadList r st' := by
  unfold getThreadFromTid
  split_ifs with hc
  · exact ⟨_, st, rfl, h, .refl st, fun p hp => (h.currentThread p hp).1⟩
  · obtain ⟨r, hr, hrp⟩ := findThread_ok tid h.thread_live
    refine ⟨r, _, by simp only [hr]; rfl, ?_, ?_, fun p hp => (hrp p hp).1⟩
    · split_ifs with hset
      · obtain ⟨p, rfl⟩ := ne_none_iff_exists'.1 hset.1
        exact h.setThread (hset.2 ▸ hrp p rfl)
      · exact h
    · split_ifs
      · rfl
      · exact .refl st

theorem getProcessFromTid_ok (h : ProcInv st) (tid : ℕ) :
    ∃ r st', getProcessFromTid st tid = some (r, st') ∧ Found st st.procList r st' := by
  obtain ⟨r, st', hr, hf⟩ := getThreadFromTid_ok h tid
  unfold getProcessFromTid
  rw [hr, bind_some]
  rcases r with _ | p
  · exact ⟨none, st', rfl, hf.inv, hf.only, fun p hp => absurd hp (by simp)⟩
  · obtain ⟨td, htd, hq, -⟩ := hf.inv.threads p (by rw [hf.only.threadList]; exact hf.listed p rfl)
    refine ⟨some td.process, st', by simp only [htd]; rfl, hf.inv, hf.only, fun q hqe => ?_⟩
    rw [← Option.some.inj hqe, ← hf.only.procList]
    exact hq

theorem getCurrentProcess_ok (h : ProcInv st) :
    ∃ r st', getCurrentProcess st = some (r, st') ∧ Found st st.procList r st' ∧ st'.currentProcess = r := by
  unfold getCurrentProcess
  rcases hc : st.currentProcess with _ | q
  · obtain ⟨r, st', hr, hf, -⟩ := getCurrentThread_ok h
    have hcp : st'.currentProcess = none := by
      unfold getCurrentThread at hr
      split at hr
      · rw [← (Prod.mk.inj (Option.some.inj hr)).2, hc]
      · obtain ⟨a, -, ha⟩ := map_eq_some_iff.1 hr
        rw [← (Prod.mk.inj ha).2]
        exact hc
    simp only [hr, bind_some]
    rcases r with _ | p
    · exact ⟨none, st', rfl, ⟨hf.inv, hf.only, fun p hp => absurd hp (by simp)⟩, hcp⟩
    · obtain ⟨td, htd, hq, -⟩ := hf.inv.threads p (by rw [hf.only.threadList]; exact hf.listed p rfl)
      refine ⟨some td.process, _, by simp only [htd]; rfl, ⟨hf.inv.setProcess hq, hf.only.trans rfl, fun q hqe => ?_⟩,
        rfl⟩
      rw [← Option.some.inj hqe, ← hf.only.procList]
      exact hq
  · exact ⟨some q, st, rfl, ⟨h, .refl st, fun q' hq' => h.currentProcess q' (hc.trans hq')⟩, hc⟩

theorem getProcessFromPid_ok (h : ProcInv st) (pid : ℕ) :
    ∃ r st', getProcessFromPid st pid = some (r, st') ∧ Found st st.procList r st' := by
  obtain ⟨c, hc, hcq⟩ : ∃ c, cachedProcess st pid = some c ∧ ∀ q, c = some q → q ∈ st.procList := by
    unfold cachedProcess
    rcases ht : st.currentThread with _ | p
    · exact ⟨none, rfl, fun p hp => absurd hp (by simp)⟩
    · obtain ⟨td, htd, hq, pd, hpd, -⟩ := h.threads p (h.currentThread p ht).1
      refine ⟨if pd.pid = pid then some td.process else none, by simp only [htd, hpd, bind_some]; rfl,
        fun q hqe => ?_⟩
      split_ifs at hqe with hpid
      exact Option.some.inj hqe ▸ hq
  unfold getProcessFromPid
  rw [hc, bind_some]
  rcases c with _ | q
  · obtain ⟨r, hr, hrq⟩ := findProcess_ok pid h.proc_live
    exact ⟨r, st, by simp only [hr]; rfl, h, .refl st, hrq⟩
  · exact ⟨some q, _, rfl, h.setProcess (hcq q rfl), rfl, hcq⟩

/-- The process at `q` has another descriptor with the same threads. -/
theorem ProcInv.setProc (h : ProcInv st) {q : ℕ} {pd pd' : ProcDesc} (hq : st.procs q = some pd)
    (ht : pd'.threads = pd.threads) : ProcInv { st with procs := update st.procs q (some pd') } := by
  have hsome : ∀ r rd, st.procs r = some rd →
      ∃ rd', update st.procs q (some pd') r = some rd' ∧ rd'.threads = rd.threads := by
    intro r rd hr
    by_cases hrq : r = q
    · subst hrq
      refine ⟨pd', by rw [update_self], ?_⟩
      rw [ht, Option.some.inj (hq.symm.trans hr)]
    · exact ⟨rd, by rw [update_of_ne hrq, hr], rfl⟩
  refine ⟨fun r hr => ?_, fun p hp => ?_, h.procNodup, h.threadNodup, h.currentThread, h.currentProcess⟩
  · obtain ⟨rd, h1, h2, h3, h4⟩ := h.procs r hr
    obtain ⟨rd', h5, h6⟩ := hsome r rd h1
    exact ⟨rd', h5, h6 ▸ h2, h6 ▸ h3, h6 ▸ h4⟩
  · obtain ⟨td, h1, h2, rd, h3, h4⟩ := h.threads p hp
    obtain ⟨rd', h5, h6⟩ := hsome _ rd h3
    exact ⟨td, h1, h2, rd', h5, h6 ▸ h4⟩

/-- An address that no listed process has may be used for anything. -/
theorem ProcInv.unlisted (h : ProcInv st) {q : ℕ} (hq : q ∉ st.procList) (x : Option ProcDesc) :
    ProcInv { st with procs := update st.procs q x } := by
  have hsame : ∀ r ∈ st.procList, update st.procs q x r = st.procs r := by
    intro r hr
    refine update_of_ne ?_ ..
    rintro rfl
    exact hq hr
  refine ⟨fun r hr => ?_, fun p hp => ?_, h.procNodup, h.threadNodup, h.currentThread, h.currentProcess⟩
  · obtain ⟨rd, h1, h2⟩ := h.procs r hr
    exact ⟨rd, (hsame r hr).trans h1, h2⟩
  · obtain ⟨td, h1, h2, rd, h3, h4⟩ := h.threads p hp
    exact ⟨td, h1, h2, rd, (hsame _ h2).trans h3, h4⟩

/-- The state after a thread at `p` has been added to the process at `q`. -/
def addThread (st : ProcState) (q p tid : ℕ) (pd : ProcDesc) : ProcState :=
  { st with
    threads := update st.threads p (some ⟨tid, q, [], 0⟩)
    threadList := p :: st.threadList
    procs := update st.procs q (some { pd with threads := p :: pd.threads }) }

theorem fresh_not_listed (h : ProcInv st) {p : ℕ} (hp : st.threads p = none) : p ∉ st.threadList := by
  intro hm
  obtain ⟨td, htd⟩ := h.thread_live p hm
  rw [hp] at htd
  exact absurd htd (by simp)

/-- The listed threads are as before. -/
theorem update_fresh (h : ProcInv st) {p : ℕ} (hp : st.threads p = none) {p' : ℕ} (hp' : p' ∈ st.threadList)
    (x : Option ThreadDesc) : update st.threads p x p' = st.threads p' := by
  refine update_of_ne ?_ ..
  rintro rfl
  exact fresh_not_listed h hp hp'

theorem fresh_not_listed_proc (h : ProcInv st) {q : ℕ} (hq : st.procs q = none) : q ∉ st.procList := by
  intro hm
  obtain ⟨td, htd⟩ := h.proc_live q hm
  rw [hq] at htd
  exact absurd htd (by simp)

/-- **A new thread of a process**, one that is listed already or is listed now. -/
theorem ProcInv.addThread (h : ProcInv st) {q p tid : ℕ} {pd : ProcDesc} (hq : st.procs q = some pd)
    (hp : st.threads p = none) {list : List ℕ}
    (hl : q ∈ st.procList ∧ list = st.procList ∨ q ∉ st.procList ∧ pd.threads = [] ∧ list = q :: st.procList) :
    ProcInv { addThread st q p tid pd with procList := list } := by
  have hpl := fresh_not_listed h hp
  have hmem : ∀ r, r ∈ list ↔ r = q ∨ r ∈ st.procList := by
    intro r
    rcases hl with ⟨h1, rfl⟩ | ⟨h1, -, rfl⟩
    · refine ⟨.inr, ?_⟩
      rintro (rfl | hr)
      · exact h1
      · exact hr
    · exact mem_cons
  -- the threads that the process had before
  have hold : pd.threads.Nodup ∧ ∀ p' ∈ pd.threads,
      p' ∈ st.threadList ∧ ∃ td, st.threads p' = some td ∧ td.process = q := by
    rcases hl with ⟨h1, -⟩ | ⟨-, h1, -⟩
    · obtain ⟨pd', h2, -, h3, h4⟩ := h.procs q h1
      obtain rfl := Option.some.inj (hq.symm.trans h2)
      exact ⟨h3, h4⟩
    · rw [h1]
      exact ⟨.nil, fun p' hp' => absurd hp' not_mem_nil⟩
  refine ⟨fun r hr => ?_, fun p' hp' => ?_, ?_, ?_, fun p' hp' => ?_,
    fun r hr => (hmem r).2 (.inr (h.currentProcess r hr))⟩
  · by_cases hrq : r = q
    · subst hrq
      refine ⟨_, update_self .., cons_ne_nil _ _, ?_, fun p' hp' => ?_⟩
      · exact nodup_cons.2 ⟨fun hm => hpl (hold.2 p hm).1, hold.1⟩
      · rcases mem_cons.1 hp' with rfl | hp'
        · exact ⟨mem_cons_self .., _, update_self .., rfl⟩
        · obtain ⟨h1, td, h2, h3⟩ := hold.2 p' hp'
          exact ⟨mem_cons_of_mem _ h1, td, (update_fresh h hp h1 _).trans h2, h3⟩
    · obtain ⟨rd, h1, h2, h3, h4⟩ := h.procs r (((hmem r).1 hr).resolve_left hrq)
      refine ⟨rd, (update_of_ne hrq ..).trans h1, h2, h3, fun p' hp' => ?_⟩
      obtain ⟨h5, td, h6, h7⟩ := h4 p' hp'
      exact ⟨mem_cons_of_mem _ h5, td, (update_fresh h hp h5 _).trans h6, h7⟩
  · rcases mem_cons.1 hp' with rfl | hp'
    · exact ⟨_, update_self .., (hmem q).2 (.inl rfl), _, update_self .., mem_cons_self ..⟩
    · obtain ⟨td, h1, h2, rd, h3, h4⟩ := h.threads p' hp'
      refine ⟨td, (update_fresh h hp hp' _).trans h1, (hmem _).2 (.inr h2), ?_⟩
      by_cases hrq : td.process = q
      · refine ⟨_, by rw [hrq]; exact update_self .., mem_cons_of_mem _ ?_⟩
        rw [hrq] at h3
        rw [Option.some.inj (hq.symm.trans h3)]
        exact h4
      · exact ⟨rd, (update_of_ne hrq ..).trans h3, h4⟩
  · rcases hl with ⟨-, rfl⟩ | ⟨h1, -, rfl⟩
    · exact h.procNodup
    · exact nodup_cons.2 ⟨h1, h.procNodup⟩
  · exact nodup_cons.2 ⟨hpl, h.threadNodup⟩
  · obtain ⟨h1, td, h2, h3⟩ := h.currentThread p' hp'
    exact ⟨mem_cons_of_mem _ h1, td, (update_fresh h hp h1 _).trans h2, h3⟩

variable {R : Rebalance MallocDescEx} {Q : Rebalance MMRangeDesc}

/-- A process without threads that is not listed yet gets its main thread and is listed. -/
theorem listProcess_ok (h : ProcInv st) (pid : ℕ) {q p : ℕ} {pd : ProcDesc} (hq : q ∉ st.procList)
    (hpd : st.procs q = some pd) (hempty : pd.threads = []) (hp : st.threads p = none) :
    ∃ st', listProcess st pid q p = some (some q, st') ∧ ProcInv st' ∧ (∃ npd, st'.procs q = some npd) ∧
      ∀ r ∈ st.procList, st'.procs r = st.procs r := by
  refine ⟨{ addThread st q p pid pd with procList := q :: st.procList }, ?_,
    h.addThread hpd hp (.inr ⟨hq, hempty, rfl⟩), ⟨_, update_self ..⟩, fun r hr => ?_⟩
  · unfold listProcess createNewThread
    rw [hpd]
    rfl
  · refine update_of_ne ?_ ..
    rintro rfl
    exact hq hr

/-- What `create_new_process` leaves: a consistent state in which the old processes are as before. -/
structure Created (st : ProcState) (q : ℕ) (r : Option ℕ) (st' : ProcState) : Prop where
  inv : ProcInv st'
  new : ∀ n, r = some n → n = q ∧ ∃ npd, st'.procs q = some npd
  old : ∀ x ∈ st.procList, st'.procs x = st.procs x

theorem createNewProcess_ok (h : ProcInv st) (pid parentPid : ℕ) {q p : ℕ} (hq : st.procs q = none)
    (hp : st.threads p = none) :
    ∃ r st', createNewProcess R Q st pid parentPid q p = some (r, st') ∧ Created st q r st' := by
  have hql := fresh_not_listed_proc h hq
  have hne : ∀ x ∈ st.procList, x ≠ q := by
    rintro x hx rfl
    exact hql hx
  unfold createNewProcess
  obtain ⟨st₀, hst₀⟩ : ∃ st₀, st₀ = { st with
    procs := update st.procs q (some ⟨[], Tree.leaf, Tree.leaf, none, pid, parentPid, 0⟩) } := ⟨_, rfl⟩
  have h₀ : ProcInv st₀ := hst₀ ▸ h.unlisted hql _
  have hl₀ : st₀.procList = st.procList := by rw [hst₀]
  have hold₀ : ∀ x ∈ st.procList, st₀.procs x = st.procs x := fun x hx => by
    rw [hst₀]
    exact update_of_ne (hne x hx) ..
  simp only [← hst₀]
  split_ifs with hpar
  · obtain ⟨st', heq, hinv, hnew, hold⟩ := listProcess_ok h₀ pid (hl₀ ▸ hql)
      (show st₀.procs q = some _ by rw [hst₀]; exact update_self ..) rfl
      (show st₀.threads p = none by rw [hst₀]; exact hp)
    refine ⟨some q, st', heq, hinv, fun n hn => ⟨(Option.some.inj hn).symm, hnew⟩, fun x hx => ?_⟩
    rw [hold x (hl₀ ▸ hx), hold₀ x hx]
  · obtain ⟨r, st₁, hr, hf⟩ := getProcessFromPid_ok h₀ parentPid
    have hl₁ : st₁.procList = st.procList := hf.only.procList.trans hl₀
    -- the descriptor is freed again
    have hfree : Created st q none { st₁ with procs := update st₁.procs q none } := by
      refine ⟨hf.inv.unlisted (hl₁ ▸ hql) none, fun n hn => absurd hn (by simp), fun x hx => ?_⟩
      rw [← hold₀ x hx, ← hf.only.procs]
      exact update_of_ne (hne x hx) ..
    rw [hr, bind_some]
    rcases r with _ | parent
    · exact ⟨none, _, rfl, hfree⟩
    · obtain ⟨pd, hpd⟩ := hf.inv.proc_live parent (by rw [hf.only.procList]; exact hf.listed parent rfl)
      simp only [hpd, bind_some]
      rcases inheritMaps R Q pd with _ | ⟨allocs, ranges⟩
      · exact ⟨none, _, rfl, hfree⟩
      · obtain ⟨st', heq, hinv, hnew, hold⟩ := listProcess_ok
          (hf.inv.unlisted (hl₁ ▸ hql) (some ⟨[], allocs, ranges, none, pid, parentPid, 0⟩)) pid (hl₁ ▸ hql)
          (update_self ..) rfl (show st₁.threads p = none by rw [hf.only.threads, hst₀]; exact hp)
        refine ⟨some q, st', heq, hinv, fun n hn => ⟨(Option.some.inj hn).symm, hnew⟩, fun x hx => ?_⟩
        rw [hold x (hl₁ ▸ hx), ← hold₀ x hx, ← hf.only.procs]
        exact update_of_ne (hne x hx) ..

/-- The state without the thread at `p`, the last one of its process or not. -/
theorem ProcInv.removeThread (h : ProcInv st) {p : ℕ} {td : ThreadDesc} {pd : ProcDesc} (hpl : p ∈ st.threadList)
    (hp : st.threads p = some td) (hq : st.procs td.process = some pd) :
    ProcInv
      (if pd.threads.erase p ≠ [] then { st with
          currentThread := none
          threadList := st.threadList.erase p
          threads := update st.threads p none
          procs := update st.procs td.process (some { pd with threads := pd.threads.erase p }) }
        else { st with
          currentThread := none
          currentProcess := none
          procList := st.procList.erase td.process
          threadList := st.threadList.erase p
          threads := update st.threads p none
          procs := update st.procs td.process none }) := by
  obtain ⟨td', h1, hql, pd', h2, hpm⟩ := h.threads p hpl
  obtain rfl := Option.some.inj (hp.symm.trans h1)
  obtain rfl := Option.some.inj (hq.symm.trans h2)
  obtain ⟨pd', h3, -, hnd, hown⟩ := h.procs _ hql
  obtain rfl := Option.some.inj (hq.symm.trans h3)
  have hmem : ∀ p', p' ∈ st.threadList.erase p ↔ p' ≠ p ∧ p' ∈ st.threadList := fun p' => h.threadNodup.mem_erase_iff
  have hmemq : ∀ p', p' ∈ pd.threads.erase p ↔ p' ≠ p ∧ p' ∈ pd.threads := fun p' => hnd.mem_erase_iff
  have hthreads : ∀ p' ≠ p, update st.threads p none p' = st.threads p' :=
    fun p' hne => update_of_ne hne ..
  -- the threads of the other processes
  have hother : ∀ r ∈ st.procList, r ≠ td.process → ∀ rd, st.procs r = some rd → ∀ p' ∈ rd.threads, p' ≠ p ∧
      p' ∈ st.threadList ∧ ∃ td', st.threads p' = some td' ∧ td'.process = r := by
    intro r hr hne rd hrd p' hp'
    obtain ⟨rd', h5, -, -, h6⟩ := h.procs r hr
    obtain rfl := Option.some.inj (hrd.symm.trans h5)
    obtain ⟨h7, td', h8, h9⟩ := h6 p' hp'
    refine ⟨?_, h7, td', h8, h9⟩
    rintro rfl
    rw [Option.some.inj (hp.symm.trans h8)] at hne
    exact hne h9.symm
  split_ifs with hlast
  · -- the process goes on
    refine ⟨fun r hr => ?_, fun p' hp' => ?_, h.procNodup, h.threadNodup.erase p, fun p' hp' => absurd hp' (by simp),
      h.currentProcess⟩
    · by_cases hrq : r = td.process
      · subst hrq
        refine ⟨_, update_self .., hlast, hnd.erase p, fun p' hp' => ?_⟩
        obtain ⟨hne, hp'⟩ := (hmemq p').1 hp'
        obtain ⟨h5, td', h6, h7⟩ := hown p' hp'
        exact ⟨(hmem p').2 ⟨hne, h5⟩, td', (hthreads p' hne).trans h6, h7⟩
      · obtain ⟨rd, h5, h6, h7, -⟩ := h.procs r hr
        refine ⟨rd, (update_of_ne hrq ..).trans h5, h6, h7, fun p' hp' => ?_⟩
        obtain ⟨hne, h8, td', h9, h10⟩ := hother r hr hrq rd h5 p' hp'
        exact ⟨(hmem p').2 ⟨hne, h8⟩, td', (hthreads p' hne).trans h9, h10⟩
    · obtain ⟨hne, hp'⟩ := (hmem p').1 hp'
      obtain ⟨td', h5, h6, rd, h7, h8⟩ := h.threads p' hp'
      refine ⟨td', (hthreads p' hne).trans h5, h6, ?_⟩
      by_cases hrq : td'.process = td.process
      · refine ⟨_, by rw [hrq]; exact update_self .., (hmemq p').2 ⟨hne, ?_⟩⟩
        rw [hrq] at h7
        rw [Option.some.inj (hq.symm.trans h7)]
        exact h8
      · exact ⟨rd, (update_of_ne hrq ..).trans h7, h8⟩
  · -- it was the last thread of its process
    rw [ne_eq, not_not] at hlast
    have hmemp : ∀ r, r ∈ st.procList.erase td.process ↔ r ≠ td.process ∧ r ∈ st.procList :=
      fun r => h.procNodup.mem_erase_iff
    refine ⟨fun r hr => ?_, fun p' hp' => ?_, h.procNodup.erase _, h.threadNodup.erase p,
      fun p' hp' => absurd hp' (by simp), fun r hr => absurd hr (by simp)⟩
    · obtain ⟨hne, hr⟩ := (hmemp r).1 hr
      obtain ⟨rd, h5, h6, h7, -⟩ := h.procs r hr
      refine ⟨rd, (update_of_ne hne ..).trans h5, h6, h7, fun p' hp' => ?_⟩
      obtain ⟨hnp, h8, td', h9, h10⟩ := hother r hr hne rd h5 p' hp'
      exact ⟨(hmem p').2 ⟨hnp, h8⟩, td', (hthreads p' hnp).trans h9, h10⟩
    · obtain ⟨hne, hp'⟩ := (hmem p').1 hp'
      obtain ⟨td', h5, h6, rd, h7, h8⟩ := h.threads p' hp'
      have hrq : td'.process ≠ td.process := by
        intro hrq
        rw [hrq] at h7
        rw [← Option.some.inj (hq.symm.trans h7)] at h8
        have := (hmemq p').2 ⟨hne, h8⟩
        rw [hlast] at this
        exact absurd this not_mem_nil
      exact ⟨td', (hthreads p' hne).trans h5, (hmemp _).2 ⟨hrq, h6⟩, rd, (update_of_ne hrq ..).trans h7, h8⟩

theorem memcheckExit_ok (h : ProcInv st) : ∃ st', memcheckExit st = some st' ∧ ProcInv st' := by
  obtain ⟨r, st₁, hr, hf, -⟩ := getCurrentThread_ok h
  unfold memcheckExit
  rw [hr, bind_some]
  rcases r with _ | p
  · exact ⟨st₁, rfl, hf.inv⟩
  · have hpl : p ∈ st₁.threadList := by
      rw [hf.only.threadList]
      exact hf.listed p rfl
    obtain ⟨td, h1, -, pd, h2, -⟩ := hf.inv.threads p hpl
    refine ⟨_, by simp only [h1, h2, bind_some]; rfl, ?_⟩
    have hrem := hf.inv.removeThread hpl h1 h2
    simp only
    split_ifs at hrem ⊢ with hlast
    · exact hrem
    · rw [update_idem]
      exact hrem

theorem parentProcess_ok (h : ProcInv st) (tgid newId : ℕ) :
    ∃ r st', parentProcess st tgid newId = some (r, st') ∧ Found st st.procList r st' := by
  unfold parentProcess
  split_ifs
  · obtain ⟨r, st', h1, h2, -⟩ := getCurrentProcess_ok h
    exact ⟨r, st', h1, h2⟩
  · exact getProcessFromTid_ok h tgid

/-- The handler would read the id of the current process, and there is none. -/
def MissesCurrent (st : ProcState) (tgid newId : ℕ) : Prop :=
  ∃ parent st₁ st₂, parentProcess st tgid newId = some (some parent, st₁) ∧ getCurrentProcess st₁ = some (none, st₂)

theorem compareWithCurrent_ok (h : ProcInv st) {tgid newId parent : ℕ} {st₁ : ProcState}
    (hpar : parentProcess st tgid newId = some (some parent, st₁)) (hf : Found st st.procList (some parent) st₁)
    (hmiss : ¬ MissesCurrent st tgid newId) :
    ∃ pd st₂, compareWithCurrent st₁ parent = some (pd, st₂) ∧ ProcInv st₂ ∧ CachesOnly st st₂ ∧
      st₂.procs parent = some pd := by
  obtain ⟨pd, hpd⟩ := h.proc_live parent (hf.listed parent rfl)
  obtain ⟨c, st₂, hc, hfc, -⟩ := getCurrentProcess_ok hf.inv
  rcases c with _ | c
  · exact absurd ⟨parent, st₁, st₂, hpar, hc⟩ hmiss
  · obtain ⟨cd, hcd⟩ := hf.inv.proc_live c (hfc.listed c rfl)
    rw [← hfc.only.procs] at hcd
    rw [← hf.only.procs] at hpd
    refine ⟨pd, st₂, ?_, hfc.inv, hf.only.trans hfc.only, by rw [hfc.only.procs]; exact hpd⟩
    unfold compareWithCurrent
    simp only [hpd, hc, hcd, bind_some]
    rfl

theorem memcheckFork_ok (h : ProcInv st) (tgid newPid : ℕ) {q p : ℕ} (hq : st.procs q = none)
    (hp : st.threads p = none) (hmiss : ¬ MissesCurrent st tgid newPid) :
    ∃ st', memcheckFork R Q st tgid newPid q p = some st' ∧ ProcInv st' := by
  obtain ⟨r, st₁, hr, hf⟩ := parentProcess_ok h tgid newPid
  unfold memcheckFork
  rw [hr, bind_some]
  rcases r with _ | parent
  · exact ⟨st₁, rfl, hf.inv⟩
  · obtain ⟨pd, st₂, h1, h2, h3, h4⟩ := compareWithCurrent_ok h hr hf hmiss
    obtain ⟨r', st₃, h5, h6⟩ := createNewProcess_ok (R := R) (Q := Q) h2 newPid pd.pid
      (show st₂.procs q = none by rw [h3.procs]; exact hq) (show st₂.threads p = none by rw [h3.threads]; exact hp)
    simp only [h1, h5, bind_some]
    rcases r' with _ | n
    · exact ⟨st₃, rfl, h6.inv⟩
    · obtain ⟨rfl, npd, hn⟩ := h6.new n rfl
      have hpar : st₃.procs parent = some pd := by
        rw [h6.old parent (by rw [h3.procList]; exact hf.listed parent rfl), h4]
      refine ⟨_, by simp only [hpar, hn, bind_some]; rfl, h6.inv.setProc hn ?_⟩
      unfold procdescSetImagePath
      split
      · rfl
      · split_ifs <;> rfl

theorem memcheckClone_ok (h : ProcInv st) (tgid newTid : ℕ) {p : ℕ} (hp : st.threads p = none)
    (hmiss : ¬ MissesCurrent st tgid newTid) :
    ∃ st', memcheckClone st tgid newTid p = some st' ∧ ProcInv st' := by
  obtain ⟨r, st₁, hr, hf⟩ := parentProcess_ok h tgid newTid
  unfold memcheckClone
  rw [hr, bind_some]
  rcases r with _ | parent
  · exact ⟨st₁, rfl, hf.inv⟩
  · obtain ⟨pd, st₂, h1, h2, h3, h4⟩ := compareWithCurrent_ok h hr hf hmiss
    refine ⟨addThread st₂ parent p newTid pd, ?_, ?_⟩
    · simp only [h1, bind_some]
      unfold createNewThread
      rw [h4]
      rfl
    · exact h2.addThread h4 (show st₂.threads p = none by rw [h3.threads]; exact hp)
        (.inl ⟨by rw [h3.procList]; exact hf.listed parent rfl, rfl⟩)

/-- The events of the kernel, with the addresses of the descriptors that they make, and lookups. -/
inductive ProcEvent where
  | initPid (newPid proc thread : ℕ)
  | fork (tgid newPid proc thread : ℕ)
  | clone (tgid newTid thread : ℕ)
  | switch (tid : ℕ)
  | exit
  | lookupThread
  | lookupProcess
  | lookupPid (pid : ℕ)

/-- The handler of the event. -/
def ProcEvent.run (R : Rebalance MallocDescEx) (Q : Rebalance MMRangeDesc) (st : ProcState) :
    ProcEvent → Option ProcState
  | initPid newPid proc thread => memcheckInitPid R Q st newPid proc thread
  | fork tgid newPid proc thread => memcheckFork R Q st tgid newPid proc thread
  | clone tgid newTid thread => memcheckClone st tgid newTid thread
  | switch tid => some (memcheckSwitch st tid)
  | exit => memcheckExit st
  | lookupThread => (getCurrentThread st).map Prod.snd
  | lookupProcess => (getCurrentProcess st).map Prod.snd
  | lookupPid pid => (getProcessFromPid st pid).map Prod.snd

/-- New descriptors are at addresses that are not in use, and a fork or clone does not need a current process that is
missing. -/
def ProcEvent.Admissible (st : ProcState) : ProcEvent → Prop
  | initPid _ proc thread => st.procs proc = none ∧ st.threads thread = none
  | fork tgid newPid proc thread => st.procs proc = none ∧ st.threads thread = none ∧ ¬ MissesCurrent st tgid newPid
  | clone tgid newTid thread => st.threads thread = none ∧ ¬ MissesCurrent st tgid newTid
  | _ => True

/-- The state after a sequence of events, `none` if one of them has followed an address that leads nowhere. -/
def procRun (R : Rebalance MallocDescEx) (Q : Rebalance MMRangeDesc) (st : ProcState) :
    List ProcEvent → Option ProcState
  | [] => some st
  | ev :: evs => (ev.run R Q st).bind fun st => procRun R Q st evs

/-- Every event of the sequence is admissible in the state that it finds. -/
def AdmissibleRun (R : Rebalance MallocDescEx) (Q : Rebalance MMRangeDesc) (st : ProcState) : List ProcEvent → Prop
  | [] => True
  | ev :: evs => ev.Admissible st ∧ ∀ st', ev.run R Q st = some st' → AdmissibleRun R Q st' evs

/-- The tables are consistent: every listed process has a thread, every listed thread is exactly once in the list of
its process, which is listed, and the cached descriptors are listed. -/
structure Consistent (st : ProcState) : Prop where
  procs : ∀ q ∈ st.procList, ∃ pd, st.procs q = some pd ∧ pd.threads ≠ []
  threads : ∀ p ∈ st.threadList, ∃ td, st.threads p = some td ∧ td.process ∈ st.procList ∧
    ∃ pd, st.procs td.process = some pd ∧ pd.threads.count p = 1
  currentThread : ∀ p, st.currentThread = some p →
    p ∈ st.threadList ∧ ∃ td, st.threads p = some td ∧ td.tid = st.currentTid
  currentProcess : ∀ q, st.currentProcess = some q → q ∈ st.procList

theorem ProcInv.consistent (h : ProcInv st) : Consistent st := by
  refine ⟨fun q hq => ?_, fun p hp => ?_, h.currentThread, h.currentProcess⟩
  · obtain ⟨pd, h1, h2, -⟩ := h.procs q hq
    exact ⟨pd, h1, h2⟩
  · obtain ⟨td, h1, h2, pd, h3, h4⟩ := h.threads p hp
    obtain ⟨pd', h5, -, h6, -⟩ := h.procs _ h2
    obtain rfl := Option.some.inj (h3.symm.trans h5)
    exact ⟨td, h1, h2, pd, h3, by rw [h6.count, if_pos h4]⟩

theorem ProcInv.init : ProcInv memcheckInitProcManagement :=
  ⟨fun _ h => absurd h not_mem_nil, fun _ h => absurd h not_mem_nil, .nil, .nil,
    fun _ h => absurd h (by simp [memcheckInitProcManagement]),
    fun _ h => absurd h (by simp [memcheckInitProcManagement])⟩

/-- **Every handler keeps the invariant** and follows no address that leads nowhere. -/
theorem ProcEvent.run_ok (h : ProcInv st) {ev : ProcEvent} (hev : ev.Admissible st) :
    ∃ st', ev.run R Q st = some st' ∧ ProcInv st' := by
  cases ev with
  | initPid newPid proc thread =>
    obtain ⟨r, st', h1, h2⟩ := createNewProcess_ok (R := R) (Q := Q) h newPid 0 hev.1 hev.2
    exact ⟨st', by simp only [run, memcheckInitPid, h1]; rfl, h2.inv⟩
  | fork tgid newPid proc thread => exact memcheckFork_ok h tgid newPid hev.1 hev.2.1 hev.2.2
  | clone tgid newTid thread => exact memcheckClone_ok h tgid newTid hev.1 hev.2
  | switch tid =>
    exact ⟨_, rfl, h.procs, h.threads, h.procNodup, h.threadNodup, fun _ hp => absurd hp (by simp [memcheckSwitch]),
      fun _ hq => absurd hq (by simp [memcheckSwitch])⟩
  | exit => exact memcheckExit_ok h
  | lookupThread =>
    obtain ⟨r, st', h1, h2, -⟩ := getCurrentThread_ok h
    exact ⟨st', by simp only [run, h1]; rfl, h2.inv⟩
  | lookupProcess =>
    obtain ⟨r, st', h1, h2, -⟩ := getCurrentProcess_ok h
    exact ⟨st', by simp only [run, h1]; rfl, h2.inv⟩
  | lookupPid pid =>
    obtain ⟨r, st', h1, h2⟩ := getProcessFromPid_ok h pid
    exact ⟨st', by simp only [run, h1]; rfl, h2.inv⟩

theorem procRun_ok (h : ProcInv st) {evs : List ProcEvent} (hevs : AdmissibleRun R Q st evs) :
    ∀ pre, pre <+: evs → ∃ st', procRun R Q st pre = some st' ∧ ProcInv st' := by
  induction evs generalizing st with
  | nil =>
    intro pre hpre
    rw [prefix_nil.1 hpre]
    exact ⟨st, rfl, h⟩
  | cons ev evs ih =>
    intro pre hpre
    rcases pre with _ | ⟨ev', pre⟩
    · exact ⟨st, rfl, h⟩
    · obtain ⟨rfl, hpre'⟩ := cons_prefix_cons.1 hpre
      obtain ⟨st', h1, h2⟩ := ProcEvent.run_ok (R := R) (Q := Q) h hevs.1
      unfold procRun
      rw [h1, bind_some]
      exact ih h2 (hevs.2 st' h1) pre hpre'

/-- **The tables of processes and threads stay consistent**: whatever the order of the events, each state that is
reached is consistent, and no handler follows an address that leads nowhere. -/
theorem process_tables_consistent (R : Rebalance MallocDescEx) (Q : Rebalance MMRangeDesc) (evs : List ProcEvent)
    (hevs : AdmissibleRun R Q memcheckInitProcManagement evs) :
    ∀ pre, pre <+: evs → ∃ st, procRun R Q memcheckInitProcManagement pre = some st ∧ Consistent st := by
  intro pre hpre
  obtain ⟨st, h1, h2⟩ := procRun_ok ProcInv.init hevs pre hpre
  exact ⟨st, h1, h2.consistent⟩

/-- A process starts a second thread and both exit; then the id of the first one is used again. -/
theorem process_tables_reuse : ∃ st, procRun .spine .spine memcheckInitProcManagement [.initPid 1 0 0, .switch 1,
    .clone 1 2 1, .exit, .switch 2, .exit, .initPid 1 0 0, .lookupThread] = some st ∧ Consistent st := by
  refine process_tables_consistent .spine .spine _ ?_ _ (prefix_refl _)
  refine ⟨⟨rfl, rfl⟩, ?_⟩
  rintro _ ⟨⟩
  refine ⟨trivial, ?_⟩
  rintro _ ⟨⟩
  refine ⟨⟨rfl, ?_⟩, ?_⟩
  · rintro ⟨parent, st₁, st₂, h1, h2⟩
    obtain ⟨-, rfl⟩ := Prod.mk.inj (Option.some.inj h1)
    have h3 : Option.map Prod.fst (getCurrentProcess _) = some none := congrArg (Option.map Prod.fst) h2
    exact absurd h3 (by decide)
  rintro _ ⟨⟩
  refine ⟨trivial, ?_⟩
  rintro _ ⟨⟩
  refine ⟨trivial, ?_⟩
  rintro _ ⟨⟩
  refine ⟨trivial, ?_⟩
  rintro _ ⟨⟩
  refine ⟨⟨rfl, rfl⟩, ?_⟩
  rintro _ ⟨⟩
  refine ⟨trivial, ?_⟩
  rintro _ ⟨⟩
  trivial

end Emulator.Memcheck
