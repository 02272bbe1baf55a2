import Emulator.Exec.PageRange
import Emulator.Exec.TbLink

/-!
# Writes to pages with code

The bitmap of a page is a cache of its list: `tb_invalidate_phys_page_fast` asks it whether a write can hit a block.

* `TbReach`: the runs, in which blocks come and go and pages are written.
* `TbReach.ok`: the lists are well-formed, and each bitmap has the octets of the blocks on its page.
* `range_miss`: a call that hits nothing leaves a page with a bitmap alone.
* `tbInvalidatePhysPageFast_eq`: the bitmap never hides a block.
-/

namespace Emulator.Exec

open Function Blocks TbState List

variable {s s' : TbState} {L : TbLists} {live : Finset ℕ} {i t : ℕ} {start last : TargetUlong}

/-- The result with enough fuel. -/
def Yields {α : Type} (f : ℕ → Option α) (r : α) : Prop := ∃ N, ∀ fuel ≥ N, f fuel = some r

/-- A block that is not live is translated anew. -/
def TbState.tbGenCode (s : TbState) (t : ℕ) (code : TbCode) : TbState :=
  { s with tb := update s.tb t { s.tb t with toTbCode := code } }

/-- **The states that a run can reach**, with the blocks that are live then. -/
inductive TbReach : TbState → Finset ℕ → Prop
  | init {s : TbState} (hhash : ∀ h, s.tbPhysHash h = none) (hmap : ∀ i, s.l1Map i = none)
      (hidle : ∀ env, (s.cpus env).currentTb = none) : TbReach s ∅
  | gen {s : TbState} {live : Finset ℕ} {t : ℕ} (code : TbCode) (h : TbReach s live) (ht : t ∉ live) :
      TbReach (s.tbGenCode t code) live
  | link {s s' : TbState} {live : Finset ℕ} {t : ℕ} {physPc physPage2 : TargetUlong} (h : TbReach s live)
      (ht : t ∉ live)
      (hl : Linkable (s.tb t).toTbCode physPc physPage2) (hrun : s.tbLinkPhys t physPc physPage2 = some s') :
      TbReach s' (insert t live)
  | invalidate {s s' : TbState} {live : Finset ℕ} {t : ℕ} (h : TbReach s live) (ht : t ∈ live)
      (hrun : Yields (s.tbPhysInvalidate · t (-1)) s') : TbReach s' (live.erase t)
  | range {s s' : TbState} {live : Finset ℕ} {calls : List ℕ} (start last : TargetUlong) (access : Bool)
      (h : TbReach s live)
      (henv : access → s.cpuSingleEnv.isSome)
      (hrun : Yields (s.tbInvalidatePhysPageRange · start last access) (s', calls)) :
        TbReach s' (live.filter (· ∉ calls))
  | fast {s s' : TbState} {live : Finset ℕ} {calls : List ℕ} (start : TargetUlong) (len : ℕ) (h : TbReach s live)
      (henv : s.cpuSingleEnv.isSome)
      (hrun : Yields (s.tbInvalidatePhysPageFast · start len) (s', calls)) : TbReach s' (live.filter (· ∉ calls))
  | addJump {s : TbState} {live : Finset ℕ} {t u : ℕ} (n : Fin 2) (h : TbReach s live) (ht : t ∈ live) (hu : u ∈ live) :
      TbReach { s with tb := s.tb.tbAddJump t n u } live
  | flush {s : TbState} {live : Finset ℕ} (h : TbReach s live) (hidle : ∀ env, (s.cpus env).currentTb = none) :
      TbReach s.tbFlush ∅
  | cpus {s : TbState} {live : Finset ℕ} (cpus : ℕ → Cpu) (cpuSingleEnv : Option ℕ) (useIcount : Bool)
      (physRamDirty : ℕ → BitVec 8) (h : TbReach s live)
      (hcurrent : ∀ env t, (cpus env).currentTb = some t → t ∈ live ∨ (s.cpus env).currentTb = some t) :
      TbReach ⟨s.tb, s.tbPhysHash, s.l1Map, physRamDirty, cpus, cpuSingleEnv, useIcount, s.tbInvalidatedFlag⟩ live

theorem Yields.eq {α : Type} {f : ℕ → Option α} {r : α} (h : Yields f r) (N : ℕ) : ∃ fuel > N, f fuel = some r := by
  obtain ⟨M, hM⟩ := h
  exact ⟨M + (N + 1), by omega, hM _ (by omega)⟩

theorem tbGenCode_ok (h : TbsOK s L) (ht : t ∉ L.live) (code : TbCode) : TbsOK (s.tbGenCode t code) L := by
  have hcode : ∀ u ∈ L.live, ((s.tbGenCode t code).tb u).toTbCode = (s.tb u).toTbCode := by
    intro u hu
    have hut : u ≠ t := fun he => ht (he ▸ hu)
    simp [TbState.tbGenCode, hut]
  have hkept : ∀ u, ((s.tbGenCode t code).tb u).toTbPhysLinks = (s.tb u).toTbPhysLinks ∧
      ((s.tbGenCode t code).tb u).toTbJumps = (s.tb u).toTbJumps := by
    intro u
    by_cases hut : u = t
    · subst hut
      simp [TbState.tbGenCode]
    · simp [TbState.tbGenCode, hut]
  have hread : (s.tbGenCode t code).pageRead = s.pageRead := pageRead_congr (fun u => (hkept u).1) rfl
  have hhash : (s.tbGenCode t code).hashRead = s.hashRead := hashRead_congr (fun u => (hkept u).1) rfl
  have hpages : ∀ i, ∀ u ∈ L.pages i, u ∈ L.live := fun i u hu => ((h.mem_page i u).1 hu).1
  refine ⟨h.jumps.frame hcode fun u => (hkept u).2, fun u hu => hcode u hu ▸ h.placed u hu, hhash ▸ h.hash,
    fun j u => ?_, ?_,
    h.pageNodup, fun i u => ?_, h.present, fun env u hu => ?_⟩
  · rw [h.mem_hash]
    refine and_congr_right fun hu => ?_
    rw [physPc, physPc, congrArg TbCode.pageAddr (hcode u hu), congrArg TbCode.pc (hcode u hu)]
  · have hlinks : ∀ i, pageLinks (s.tbGenCode t code).tb i (L.pages i) = pageLinks s.tb i (L.pages i) := by
      intro i
      refine flatMap_congr fun u hu => ?_
      simp only [entries, onPage_code (hcode u (hpages i u hu))]
    rw [hread]
    simp only [hlinks]
    exact h.page
  · rw [h.mem_page]
    refine and_congr_right fun hu => ?_
    simp only [onPage_code (hcode u hu)]
  · refine (h.current env u hu).imp_right fun hnull n => ?_
    rw [congrArg TbJumps.jmpNext (hkept u).2]
    exact hnull n

theorem BitmapsOK.gen (h : BitmapsOK s L) (hok : TbsOK s L) (ht : t ∉ L.live) (code : TbCode) :
    BitmapsOK (s.tbGenCode t code) L := by
  intro i tab htab
  obtain ⟨hne, hcovers⟩ := h i tab htab
  refine ⟨hne, fun u hu => ?_⟩
  have hut : u ≠ t := fun he => ht (he ▸ ((hok.mem_page i u).1 hu).1)
  have hcode : ((s.tbGenCode t code).tb u).toTbCode = (s.tb u).toTbCode := by simp [TbState.tbGenCode, hut]
  rw [hcode]
  exact hcovers u hu

theorem BitmapsOK.link (h : BitmapsOK s L) (hok : TbsOK s L) (ht : t ∉ L.live) {physPc physPage2 : TargetUlong}
    (hby : LinkedBy s s' t physPc physPage2) (bucket : ℕ) : BitmapsOK s' (L.insert s'.tb t bucket) := by
  intro i tab htab
  by_cases hi : ∃ n, OnPage (s'.tb t) n i
  · obtain ⟨n, hn⟩ := hi
    rw [hby.dropped n i hn] at htab
    cases htab
  · rw [hby.bitmap i fun n hn => hi ⟨n, hn⟩] at htab
    obtain ⟨hne, hcovers⟩ := h i tab htab
    simp only [TbLists.insert, if_neg hi]
    refine ⟨hne, fun u hu => ?_⟩
    have hut : u ≠ t := fun he => ht (he ▸ ((hok.mem_page i u).1 hu).1)
    rw [hby.others u hut]
    exact hcovers u hu

theorem BitmapsOK.invalidate (h : BitmapsOK s L) (hby : InvalidatedBy s s' t (t ∈ L.pages ·)) :
    BitmapsOK s' (L.drop t) := by
  intro i tab htab
  by_cases hi : t ∈ L.pages i
  · rw [hby.dropped i hi] at htab
    cases htab
  · rw [hby.bitmap i hi] at htab
    obtain ⟨hne, hcovers⟩ := h i tab htab
    rw [TbLists.drop_pages, erase_of_not_mem hi]
    exact ⟨hne, hcovers.congr hby.code⟩

theorem BitmapsOK.flush (s : TbState) (L : TbLists) : BitmapsOK s.tbFlush L := by
  intro i tab htab
  rw [bitmapOf, pageFind_tbFlush] at htab
  cases hp : s.pageFind i <;> simp [hp, invalidatePageBitmap] at htab

theorem sameCode_tbAddJump (b : Blocks) (t : ℕ) (n : Fin 2) (u : ℕ) : b.SameCode (b.tbAddJump t n u) := by
  rw [tbAddJump]
  split_ifs
  · exact ((sameCode_tbSetJmpTarget _ _ _).trans (sameCode_setJmp _ _)).trans (sameCode_setJmp _ _)
  · exact .rfl

theorem addJump_ok (h : TbsOK s L) (hbitmaps : BitmapsOK s L) {u : ℕ} (n : Fin 2) (ht : t ∈ L.live) (hu : u ∈ L.live) :
    ∃ ring, TbsOK { s with tb := s.tb.tbAddJump t n u } { L with ring := ring } ∧
      BitmapsOK { s with tb := s.tb.tbAddJump t n u } { L with ring := ring } := by
  have hcode := sameCode_tbAddJump s.tb t n u
  refine ⟨_, h.setJumps rfl hcode (h.jumps.addJump (n := n) ht hu) fun v hv m hnull => ?_, fun i tab htab => ?_⟩
  · have hvt : v ≠ t := fun he => hv (he ▸ ht)
    rw [tbAddJump]
    split_ifs
    · rw [jmpAt_next, jmpAt_setJmp, jmpAt_setJmp, update_of_ne (by simp),
        update_of_ne (by simp [hvt]),
        jmpAt_tbSetJmpTarget]
      exact hnull
    · exact hnull
  · obtain ⟨hne, hcovers⟩ := hbitmaps i tab htab
    exact ⟨hne, hcovers.congr hcode.code⟩

/-- A write that the bitmap lets pass, or a call of the slow path. -/
theorem tbInvalidatePhysPageFast_cases (s : TbState) (start : TargetUlong) (len : ℕ) :
    (∀ fuel, s.tbInvalidatePhysPageFast fuel start len =
      s.tbInvalidatePhysPageRange fuel start (start + .ofNat 32 len) true) ∨
    (∀ fuel, s.tbInvalidatePhysPageFast fuel start len = some (s, [])) ∧
      ∃ p tab, s.pageFind (pageIndex start) = some p ∧ p.codeBitmap = some tab ∧
        (tab ((pageOffset start).toNat / 8) >>> ((pageOffset start).toNat % 8)).toNat &&& (1 <<< len - 1) = 0 := by
  simp only [tbInvalidatePhysPageFast]
  cases hp : s.pageFind (pageIndex start) with
  | none => exact .inl fun fuel => by rw [tbInvalidatePhysPageRange, hp]
  | some p =>
    cases htab : p.codeBitmap with
    | none => exact .inl fun fuel => by simp only [htab]
    | some tab =>
      simp only [htab]
      by_cases hbits : (tab ((pageOffset start).toNat /
        8) >>> ((pageOffset start).toNat % 8)).toNat &&& (1 <<< len - 1) = 0
      · exact .inr ⟨fun fuel => if_neg (not_not.2 hbits), p, tab, rfl, htab, hbits⟩
      · exact .inl fun fuel => if_pos hbits

/-- A call of the slow path, in a run that goes on. -/
theorem range_ok (h : TbsOK s L) (hbitmaps : BitmapsOK s L) {access : Bool}
    (henv : access → s.cpuSingleEnv.isSome) {calls : List ℕ}
    (hrun : Yields (s.tbInvalidatePhysPageRange · start last access) (s', calls)) :
    ∃ L', L'.live = L.live.filter (· ∉ calls) ∧ TbsOK s' L' ∧ BitmapsOK s' L' := by
  obtain ⟨fuel, hfuel, hrun⟩ := hrun.eq (2 * L.live.card)
  have honce : ∀ t ∈ L.live, ¬ HitTwice s.tb start last (pageIndex start) t := by
    intro t ht htwice
    rw [tbInvalidatePhysPageRange_twice h ht htwice access hfuel] at hrun
    cases hrun
  obtain ⟨s₁, hrun₁, hok₁, -, hbitmaps₁⟩ := tbInvalidatePhysPageRange_ok h honce henv hfuel
  rw [hrun] at hrun₁
  obtain ⟨rfl, rfl⟩ := Prod.mk.inj (Option.some.inj hrun₁)
  refine ⟨_, ?_, hok₁, hbitmaps₁ hbitmaps⟩
  ext t
  rw [afterCalls_live, Finset.mem_filter]

/-- **The invariant of a run.** -/
theorem TbReach.ok (h : TbReach s live) : ∃ L, L.live = live ∧ TbsOK s L ∧ BitmapsOK s L := by
  induction h with
  | init hhash hmap hidle =>
    refine ⟨TbLists.empty, rfl, tbsOK_empty hhash (fun i p hp => ?_) fun env t ht => ?_, fun i tab htab => ?_⟩
    · simp [pageFind, hmap] at hp
    · simp [hidle] at ht
    · simp [bitmapOf, pageFind, hmap] at htab
  | gen code _ ht ih =>
    obtain ⟨L, rfl, hok, hbitmaps⟩ := ih
    exact ⟨L, rfl, tbGenCode_ok hok ht code, hbitmaps.gen hok ht code⟩
  | link _ ht hl hrun ih =>
    obtain ⟨L, rfl, hok, hbitmaps⟩ := ih
    obtain ⟨s', hrun', hok', hby⟩ := tbLinkPhys_ok hok ht hl
    obtain rfl := Option.some.inj (hrun.symm.trans hrun')
    exact ⟨_, rfl, hok', hbitmaps.link hok ht hby _⟩
  | invalidate _ ht hrun ih =>
    obtain ⟨L, rfl, hok, hbitmaps⟩ := ih
    obtain ⟨fuel, hfuel, hrun⟩ := hrun.eq (2 * L.live.card)
    obtain ⟨s', hrun', hok', hby⟩ := tbPhysInvalidate_ok hok ht hfuel
    obtain rfl := Option.some.inj (hrun.symm.trans hrun')
    exact ⟨_, rfl, hok', hbitmaps.invalidate hby⟩
  | range start last access _ henv hrun ih =>
    obtain ⟨L, rfl, hok, hbitmaps⟩ := ih
    exact range_ok hok hbitmaps henv hrun
  | @fast s s' live calls start len _ henv hrun ih =>
    obtain ⟨L, rfl, hok, hbitmaps⟩ := ih
    rcases tbInvalidatePhysPageFast_cases s start len with hsame | ⟨hpass, -⟩
    · simp only [hsame] at hrun
      exact range_ok hok hbitmaps (fun _ => henv) hrun
    · obtain ⟨fuel, -, hrun⟩ := hrun.eq 0
      rw [hpass] at hrun
      obtain ⟨rfl, rfl⟩ := Prod.mk.inj (Option.some.inj hrun)
      exact ⟨L, by simp, hok, hbitmaps⟩
  | addJump n _ ht hu ih =>
    obtain ⟨L, rfl, hok, hbitmaps⟩ := ih
    obtain ⟨ring, hok', hbitmaps'⟩ := addJump_ok hok hbitmaps n ht hu
    exact ⟨{ L with ring := ring }, rfl, hok', hbitmaps'⟩
  | flush _ hidle ih =>
    exact ⟨TbLists.empty, rfl, tbFlush_ok fun env t ht => by simp [hidle] at ht, .flush _ _⟩
  | cpus cpus cpuSingleEnv useIcount physRamDirty _ hcurrent ih =>
    obtain ⟨L, rfl, hok, hbitmaps⟩ := ih
    refine ⟨L, rfl, ⟨hok.jumps, hok.placed, hok.hash, hok.mem_hash, hok.page, hok.pageNodup, hok.mem_page, hok.present,
      fun env t ht => ?_⟩, hbitmaps⟩
    rcases hcurrent env t ht with hlive | hold
    · exact .inl hlive
    · exact hok.current env t hold

/-- A walk that hits nothing. -/
theorem invalidateWalk_none {steps : ℕ} (h : TbsOK s L) (hi : (s.pageFind i).isSome) {r : List PageLink} :
    ∀ {l : List PageLink} {fuel : ℕ}, pageLinks s.tb i (L.pages i) = l ++ r → (∀ e ∈ r, ¬ TbHit s.tb start last e) →
      r.length < fuel → invalidateWalk steps start last fuel s r.head? = some (s, []) := by
  induction r with
  | nil =>
    intro l fuel _ _ hfuel
    obtain ⟨m, rfl⟩ := Nat.exists_eq_succ_of_ne_zero (show fuel ≠ 0 by omega)
    rfl
  | cons e r ih =>
    intro l fuel hl hmiss hfuel
    obtain ⟨m, rfl⟩ := Nat.exists_eq_succ_of_ne_zero (show fuel ≠ 0 by omega)
    have hnext : (s.tb e.1).pageNext e.2 = r.head? := Option.some.inj (h.page.read_node hi hl)
    rw [List.head?_cons, invalidateWalk_miss (hmiss e mem_cons_self), hnext]
    exact ih (l := l ++ [e]) (by simp [hl]) (fun e' he' => hmiss e' (mem_cons_of_mem _ he')) (by simpa using hfuel)

/-- A call that hits nothing leaves a page with blocks and a bitmap alone. -/
theorem range_miss (h : TbsOK s L) {p : PageDesc} (hp : s.pageFind (pageIndex start) = some p)
    (hbitmap : p.codeBitmap.isSome)
    (hne : L.pages (pageIndex start) ≠ [])
    (hmiss : ∀ e ∈ pageLinks s.tb (pageIndex start) (L.pages (pageIndex start)), ¬ TbHit s.tb start last e)
      (access : Bool)
    {fuel : ℕ} (hfuel : 2 * L.live.card < fuel) :
    s.tbInvalidatePhysPageRange fuel start last access = some (s, []) := by
  have hhere : (s.pageFind (pageIndex start)).isSome := by simp [hp]
  have hfirst : p.firstTb = (pageLinks s.tb (pageIndex start) (L.pages (pageIndex start))).head? := by
    have := h.page.read_head hhere
    simpa [pageRead, hp] using this
  have hlen := h.length_pages_le (i := pageIndex start)
  have hlinks := length_pageLinks_le (b := s.tb) (i := pageIndex start) (L.pages (pageIndex start))
  have hwalk : invalidateWalk fuel start last fuel s
    (pageLinks s.tb (pageIndex start) (L.pages (pageIndex start))).head? =
      some (s, []) := invalidateWalk_none h hhere (l := []) rfl hmiss (by omega)
  have hsome : p.firstTb.isSome := by
    obtain ⟨t, ht⟩ := exists_mem_of_ne_nil _ hne
    obtain ⟨n, hn⟩ := ((h.mem_page _ t).1 ht).2
    have hlink : (t, n) ∈ pageLinks s.tb (pageIndex start) (L.pages (pageIndex start)) :=
      mem_flatMap.2 ⟨t, ht, mem_entries.2 ⟨rfl, hn⟩⟩
    rw [hfirst, isSome_head?]
    exact ne_nil_of_mem hlink
  have hcount : s.countWrite fuel (pageIndex start) p access = some s := if_pos hbitmap
  have hend : s.endSlowWrites start access = some s := by simp [endSlowWrites, hp, hsome]
  rw [tbInvalidatePhysPageRange, hp]
  simp only [hcount, hfirst, hwalk, hend, Option.bind_eq_bind, Option.bind_some]
  rfl

/-- A link that an aligned write hits has a bit that the test sees. -/
theorem bits_of_hit (h : TbsOK s L) (hbitmaps : BitmapsOK s L) {tab : ℕ → BitVec 8}
    (htab : s.bitmapOf (pageIndex start) = some tab) {len : ℕ} (hlen : len = 1 ∨ len = 2 ∨ len = 4 ∨ len = 8)
    (halign : start.toNat % len = 0) {e : PageLink}
    (he : e ∈ pageLinks s.tb (pageIndex start) (L.pages (pageIndex start)))
    (hhit : TbHit s.tb start (start + .ofNat 32 len) e) :
    (tab ((pageOffset start).toNat / 8) >>> ((pageOffset start).toNat % 8)).toNat &&& (1 <<< len - 1) ≠ 0 := by
  obtain ⟨t, n⟩ := e
  obtain ⟨u, hu, hmem⟩ := mem_flatMap.1 he
  obtain ⟨rfl, hon⟩ := mem_entries.1 hmem
  have hlive := ((h.mem_page _ t).1 hu).1
  have hoff := toNat_pageOffset start
  have hstart := start.isLt
  have hlast : (start + .ofNat 32 len : TargetUlong).toNat = (start.toNat + len) % 2 ^ 32 := by
    rw [BitVec.toNat_add, BitVec.toNat_ofNat]
    omega
  have hbelow := (tbHit_iff.1 hhit).2
  -- a write at the end of the address space has the end 0, and hits nothing
  have hlast' : (start + .ofNat 32 len : TargetUlong).toNat = start.toNat + len := by
    rcases hlen with rfl | rfl | rfl | rfl <;> omega
  have hlt : start < start + .ofNat 32 len := by
    rw [BitVec.lt_def, hlast']
    rcases hlen with rfl | rfl | rfl | rfl <;> omega
  have hpage : InPage start (start + .ofNat 32 len) := by
    intro _
    have hone : (start + .ofNat 32 len - 1 : TargetUlong).toNat = start.toNat + len - 1 := by
      rw [BitVec.toNat_sub, hlast']
      have := (start + .ofNat 32 len : TargetUlong).isLt
      change (2 ^ 32 - 1 + (start.toNat + len)) % 2 ^ 32 = _
      rcases hlen with rfl | rfl | rfl | rfl <;> omega
    rw [pageIndex_eq, pageIndex_eq, hone]
    rcases hlen with rfl | rfl | rfl | rfl <;> omega
  have hmeets : (s.tb t).Meets start (start + .ofNat 32 len) := by
    refine (meets_iff (h.placed t hlive) hlt hpage).2 ?_
    fin_cases n
    · exact .inl ⟨hon, .inl hhit⟩
    · exact .inr ⟨hon, hhit⟩
  obtain ⟨k, hk, hge, hlt'⟩ := hmeets
  rw [hlast'] at hlt'
  refine (bitmapTest_iff ?_).2 ⟨(s.tb t).octetAddr k % 1024, ?_, ?_, (hbitmaps _ tab htab).2 t hu k hk ?_⟩
  · rcases hlen with rfl | rfl | rfl | rfl <;> omega
  · rcases hlen with rfl | rfl | rfl | rfl <;> omega
  · rcases hlen with rfl | rfl | rfl | rfl <;> omega
  · rw [pageIndex_eq]
    rcases hlen with rfl | rfl | rfl | rfl <;> omega

/-- **The bitmap never hides a block.** In every state that a run of links, invalidations and writes reaches, the fast
path does what the slow one does for every aligned write; a page that has a bitmap has a bit in it for each octet of a
live block, and `set_bits` sets exactly the bits that it is asked for. -/
theorem tbInvalidatePhysPageFast_eq (h : TbReach s live) {len : ℕ} (hlen : len = 1 ∨ len = 2 ∨ len = 4 ∨ len = 8)
    (halign : start.toNat % len = 0) :
    (∃ N, ∀ fuel ≥ N, s.tbInvalidatePhysPageFast fuel start len =
      s.tbInvalidatePhysPageRange fuel start (start + .ofNat 32 len) true) ∧
    (∀ i p tab, s.pageFind i = some p → p.codeBitmap = some tab → ∀ t ∈ live, ∀ k < (s.tb t).size,
      (s.tb t).octetAddr k / 1024 = i → bitAt tab ((s.tb t).octetAddr k % 1024) = true) ∧
    ∀ tab start len k, bitAt (setBits tab start len) k = (bitAt tab k || decide (start ≤ k ∧ k < start + len)) := by
  obtain ⟨L, rfl, hok, hbitmaps⟩ := h.ok
  refine ⟨?_, fun i p tab hp htab t ht k hk hi => ?_, bitAt_setBits⟩
  · rcases tbInvalidatePhysPageFast_cases s start len with hsame | ⟨hpass, p, tab, hp, htab, hbits⟩
    · exact ⟨0, fun fuel _ => hsame fuel⟩
    · have hbitmap : s.bitmapOf (pageIndex start) = some tab := by simp [bitmapOf, hp, htab]
      refine ⟨2 * L.live.card + 1, fun fuel hfuel => ?_⟩
      rw [hpass, range_miss hok hp (by simp [htab]) (hbitmaps _ tab hbitmap).1 (fun e he hhit => ?_) true hfuel]
      exact bits_of_hit hok hbitmaps hbitmap hlen halign he hhit hbits
  · have hbitmap : s.bitmapOf i = some tab := by simp [bitmapOf, hp, htab]
    obtain ⟨n, hon, -⟩ := link_of_octet (hok.placed t ht) hk hi
    exact (hbitmaps i tab hbitmap).2 t ((hok.mem_page i t).2 ⟨ht, n, hon⟩) k hk hi

theorem tbInvalidatePhysPageFast_eq_short :
    ∃ s, TbReach s {0} ∧ ∃ N, ∀ fuel ≥ N, s.tbInvalidatePhysPageFast fuel 0x1304 4 =
      s.tbInvalidatePhysPageRange fuel 0x1304 (0x1304 + .ofNat 32 4) true := by
  have hinit : TbReach (unlinked ⟨0x8300, 0x10, 0, fun _ => 0xffff, fun _ => 0⟩) ∅ :=
    .init (fun _ => rfl) (fun _ => rfl) fun _ => rfl
  have hlinkable : Linkable ⟨0x8300, 0x10, 0, fun _ => 0xffff, fun _ => 0⟩ 0x1300 (-1) :=
    ⟨by decide, by decide, by decide, by decide, by decide⟩
  obtain ⟨s, hrun, -, -⟩ := tbLinkPhys_ok (unlinked_ok _) (t := 0) (by simp [TbLists.empty]) hlinkable
  have hreach : TbReach s {0} := hinit.link (Finset.notMem_empty 0) hlinkable hrun
  exact ⟨s, hreach, (tbInvalidatePhysPageFast_eq hreach (.inr (.inr (.inl rfl))) (by decide)).1⟩

end Emulator.Exec
