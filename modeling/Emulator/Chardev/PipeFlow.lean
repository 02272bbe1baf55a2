import Emulator.Chardev.CharPipe
import Emulator.Lib.NextChain

/-!
# A pipe is a flow-controlled queue

What is written is what the peer has got, followed by what the chain of buffers holds. `charpipehalf_poll` asks the peer
how much it can take only if the half itself has a `chr_can_read`; without one it passes on all there is.

* `Chained`: the chain of a half, and the free buffers.
* `charpipehalfWrite_ok`, `charpipehalfPoll_ok`: what the two functions do.
* `pipeRun_flow`: what holds after any run.
-/

namespace Emulator.Chardev

open Function Emulator.Lib CharPipeHalf List

/-- The bytes passed to the peer. -/
def passed (calls : List PeerCall) : List UInt8 :=
  calls.flatMap fun call =>
    match call with
    | .canRead _ => []
    | .read bytes => bytes

/-- The number that the last call announced: none is left after a read. -/
def allowance : ℕ → List PeerCall → ℕ
  | n, [] => n
  | _, .canRead n :: calls => allowance n calls
  | _, .read _ :: calls => allowance 0 calls

/-- **No read passes more than was announced** just before it. -/
def Announced : ℕ → List PeerCall → Prop
  | _, [] => True
  | _, .canRead n :: calls => Announced n calls
  | n, .read bytes :: calls => bytes.length ≤ n ∧ Announced 0 calls

variable {calls calls' : List PeerCall} {n : ℕ}

theorem passed_append : passed (calls ++ calls') = passed calls ++ passed calls' := flatMap_append

theorem allowance_append : allowance n (calls ++ calls') = allowance (allowance n calls) calls' := by
  induction calls generalizing n with
  | nil => rfl
  | cons call calls ih => cases call <;> exact ih

theorem announced_append : Announced n (calls ++ calls') ↔ Announced n calls ∧
    Announced (allowance n calls) calls' := by
  induction calls generalizing n with
  | nil => simp [Announced, allowance]
  | cons call calls ih =>
    cases call with
    | canRead m => exact ih
    | read bytes =>
      simp only [cons_append, Announced, allowance, ih, and_assoc]

/-- Calls that start and end without an allowance, and pass the bytes `sent`. -/
structure Passes (calls : List PeerCall) (sent : List UInt8) : Prop where
  bytes : passed calls = sent
  quiet : allowance 0 calls = 0

theorem Passes.nil : Passes [] [] := ⟨rfl, rfl⟩

/-- **The chain of a half and the free buffers**: lists without a common node, and sound rings in the chain. -/
structure Chained (ph : CharPipeHalf) (chain free : List ℕ) : Prop where
  first : ChainFrom ph.next ph.bipFirst chain
  last : ph.bipLast = chain.getLast?
  freeList : ChainFrom ph.next ph.freeBipBuffers free
  nodup : (chain ++ free).Nodup
  fresh : ∀ b ∈ chain ++ free, b < ph.fresh
  cbs : ∀ b ∈ chain, (ph.cb b).Ok ∧ (ph.cb b).size = bipBufferSize

/-- The bytes in the buffers of the chain. -/
def held (ph : CharPipeHalf) (chain : List ℕ) : List UInt8 := chain.flatMap fun b => (ph.cb b).contents

variable {ph : CharPipeHalf} {chain free : List ℕ} {b : ℕ}

theorem held_congr {ph' : CharPipeHalf} (h : ∀ c ∈ chain, ph'.cb c = ph.cb c) : held ph' chain = held ph chain :=
  flatMap_congr fun c hc => by rw [h c hc]

/-- A buffer that has just been allocated, not yet in the chain. -/
structure NewBuffer (ph : CharPipeHalf) (chain free : List ℕ) (b : ℕ) : Prop extends Chained ph chain free where
  notMem : b ∉ chain ++ free
  lt : b < ph.fresh
  next : ph.next b = none
  cb : (ph.cb b).Ok ∧ (ph.cb b).size = bipBufferSize
  empty : (ph.cb b).contents = []

theorem Chained.init (h : Chained ph chain free) (hb : b ∉ chain ++ free) (hlt : b < ph.fresh) :
    NewBuffer (ph.initBuffer b) chain free b := by
  have hchain : ∀ c ∈ chain, c ≠ b := fun c hc => ne_of_mem_of_not_mem (mem_append_left _ hc) hb
  refine ⟨⟨?_, h.last, ?_, h.nodup, h.fresh, fun c hc => ?_⟩, hb, hlt, update_self _ _ _, ?_, ?_⟩
  · exact h.first.congr fun c hc => update_of_ne (hchain c hc) _ _
  · exact h.freeList.congr fun c hc => update_of_ne (ne_of_mem_of_not_mem (mem_append_right _ hc) hb) _ _
  · simp only [initBuffer, update_of_ne (hchain c hc)]
    exact h.cbs c hc
  · simp only [initBuffer, update_self]
    exact ⟨(CBuffer.reset_ok (by decide)).1, rfl⟩
  · simp only [initBuffer, update_self]
    rfl

/-- **A new buffer**, from the free ones or from `malloc`. -/
theorem Chained.alloc (h : Chained ph chain free) : ∃ b ph' free', ph.bipBufferAlloc = (b, ph') ∧
    NewBuffer ph' chain free' b ∧ (∀ c ∈ chain, ph'.cb c = ph.cb c) ∧ ph'.calls = ph.calls := by
  have hkept : ∀ {ph' : CharPipeHalf} {b : ℕ} {free' : List ℕ}, ph'.cb = ph.cb →
    NewBuffer (ph'.initBuffer b) chain free' b →
      ∀ c ∈ chain, (ph'.initBuffer b).cb c = ph.cb c := by
    intro ph' b free' hcb hnew c hc
    rw [← hcb]
    exact update_of_ne (ne_of_mem_of_not_mem (mem_append_left _ hc) hnew.notMem) _ _
  cases free with
  | nil =>
    have hnull : ph.freeBipBuffers = none := h.freeList
    have hnot : ph.fresh ∉ chain ++ [] := fun hmem => absurd (h.fresh _ hmem) (Nat.lt_irrefl _)
    have hgrown : Chained { ph with fresh := ph.fresh + 1 } chain [] :=
      ⟨h.first, h.last, h.freeList, h.nodup, fun c hc => (h.fresh c hc).trans (Nat.lt_succ_self _), h.cbs⟩
    have hnew := hgrown.init hnot (Nat.lt_succ_self _)
    exact ⟨ph.fresh, _, [], by simp only [bipBufferAlloc, hnull], hnew, hkept rfl hnew, rfl⟩
  | cons b free =>
    obtain ⟨hhead, hrest⟩ := h.freeList
    obtain ⟨hchain, hfree, hdisj⟩ := nodup_append.1 h.nodup
    obtain ⟨hbfree, hfree⟩ := nodup_cons.1 hfree
    have hnot : b ∉ chain ++ free :=
      fun hmem => (mem_append.1 hmem).elim (fun hc => hdisj b hc b mem_cons_self rfl) hbfree
    have hsub : ∀ c ∈ chain ++ free, c ∈ chain ++ b :: free := by
      intro c hc
      rw [mem_append] at hc ⊢
      exact hc.imp_right (mem_cons_of_mem _)
    have htaken : Chained { ph with freeBipBuffers := ph.next b } chain free :=
      ⟨h.first, h.last, hrest,
        nodup_append.2 ⟨hchain, hfree, fun x hx y hy => hdisj x hx y (mem_cons_of_mem _ hy)⟩,
        fun c hc => h.fresh c (hsub c hc), h.cbs⟩
    have hnew := htaken.init hnot (h.fresh b (mem_append_right _ mem_cons_self))
    exact ⟨b, _, free, by simp only [bipBufferAlloc, hhead], hnew, hkept rfl hnew, rfl⟩

/-- The new buffer becomes the chain. -/
theorem NewBuffer.start (h : NewBuffer ph [] free b) :
    Chained { ph with bipFirst := some b, bipLast := some b } [b] free := by
  refine ⟨⟨rfl, h.next⟩, rfl, h.freeList, ?_, ?_, ?_⟩
  · exact nodup_cons.2 ⟨h.notMem, h.nodup⟩
  · rintro c hc
    rcases mem_cons.1 hc with rfl | hc
    · exact h.lt
    · exact h.fresh c hc
  · intro c hc
    obtain rfl := mem_singleton.1 hc
    exact h.cb

/-- The new buffer goes behind the last one. -/
theorem NewBuffer.snoc {a : ℕ} (h : NewBuffer ph (chain ++ [a]) free b) :
    Chained { ph with bipLast := some b, next := update ph.next a (some b) } (chain ++ [a] ++ [b]) free := by
  obtain ⟨hchain, hfree, hdisj⟩ := nodup_append.1 h.nodup
  have ha : a ∉ chain := by
    have := (nodup_append.1 hchain).2.2
    exact fun hmem => this a hmem a (mem_singleton_self a) rfl
  have hmem : a ∈ chain ++ [a] := mem_append_right _ (mem_singleton_self a)
  have hab : a ≠ b := fun he => h.notMem (he ▸ mem_append_left _ hmem)
  refine ⟨h.first.snoc ha h.next hab, by simp, ?_, ?_, ?_, ?_⟩
  · exact h.freeList.congr fun c hc => update_of_ne (fun he => hdisj a hmem c hc he.symm) _ _
  · rw [append_assoc, nodup_append]
    refine ⟨hchain, nodup_cons.2 ⟨fun hb => h.notMem (mem_append_right _ hb), hfree⟩, ?_⟩
    intro x hx y hy
    rcases mem_cons.1 hy with rfl | hy
    · exact fun he => h.notMem (he ▸ mem_append_left _ hx)
    · exact hdisj x hx y hy
  · intro c hc
    rw [append_assoc, mem_append, singleton_append, mem_cons] at hc
    rcases hc with hc | rfl | hc
    · exact h.fresh c (mem_append_left _ hc)
    · exact h.lt
    · exact h.fresh c (mem_append_right _ hc)
  · intro c hc
    rcases mem_append.1 hc with hc | hc
    · exact h.cbs c hc
    · obtain rfl := mem_singleton.1 hc
      exact h.cb

/-- A ring of the chain changes. -/
theorem Chained.setCb (h : Chained ph chain free) (b : ℕ) {cb : CBuffer} (hcb : cb.Ok)
    (hsize : cb.size = bipBufferSize) :
    Chained { ph with cb := update ph.cb b cb } chain free := by
  refine ⟨h.first, h.last, h.freeList, h.nodup, h.fresh, fun c hc => ?_⟩
  by_cases hcb' : c = b
  · subst hcb'
    simp only [update_self]
    exact ⟨hcb, hsize⟩
  · simp only [update_of_ne hcb']
    exact h.cbs c hc

variable {hd : Handlers} {can : ℕ → ℕ}

/-- The peer is asked before each read, and takes the first bytes. -/
theorem writeDirect_ok (hcan : hd.peerCanRead = true) {fuel : ℕ} : ∀ {buf : List UInt8} {ret : ℕ} {ph : CharPipeHalf},
    buf.length ≤ fuel → ∃ sent rest calls asked, buf = sent ++ rest ∧
      writeDirect hd can fuel buf ret ph =
        (rest, ret + sent.length, { ph with asked := asked, calls := ph.calls ++ calls }) ∧
      Passes calls sent ∧ Announced 0 calls := by
  induction fuel with
  | zero =>
    intro buf ret ph hlen
    obtain rfl := eq_nil_of_length_eq_zero (show buf.length = 0 by omega)
    exact ⟨[], [], [], ph.asked, rfl, by simp [writeDirect], .nil, trivial⟩
  | succ fuel ih =>
    intro buf ret ph hlen
    by_cases hnil : buf.length = 0
    · obtain rfl := eq_nil_of_length_eq_zero hnil
      exact ⟨[], [], [], ph.asked, rfl, by simp [writeDirect], .nil, trivial⟩
    · simp only [writeDirect, if_neg hnil, hcan, if_true, qemuChrCanRead, Bool.not_true, Bool.false_eq_true, if_false]
      by_cases hzero : can ph.asked = 0
      · rw [if_pos hzero, hzero]
        exact ⟨[], buf, [.canRead 0], ph.asked + 1, rfl, rfl, ⟨rfl, rfl⟩, trivial⟩
      · rw [if_neg hzero]
        obtain ⟨n, hn⟩ : ∃ n, n = if can ph.asked > buf.length then buf.length else can ph.asked := ⟨_, rfl⟩
        have hle : n ≤ buf.length ∧ n ≤ can ph.asked ∧ 0 < n := by
          rw [hn]
          split_ifs <;> omega
        rw [← hn]
        obtain ⟨sent, rest, calls, asked, hbuf, hrun, hpass, hann⟩ :=
          @ih (buf.drop n) (ret + n)
            ({ ph with
              asked := ph.asked + 1
              calls := ph.calls ++ [PeerCall.canRead (can ph.asked)] }.qemuChrRead (buf.take n))
            (by rw [length_drop]; omega)
        have hlength : (buf.take n).length = n := by
          rw [length_take]
          omega
        refine ⟨buf.take n ++ sent, rest, .canRead (can ph.asked) :: .read (buf.take n) :: calls, asked, ?_, ?_,
          ⟨?_, ?_⟩, ?_⟩
        · rw [append_assoc, ← hbuf, take_append_drop]
        · rw [hrun, length_append, hlength, ← Nat.add_assoc]
          simp [qemuChrRead]
        · change buf.take n ++ passed calls = _
          rw [hpass.bytes]
        · exact hpass.quiet
        · exact ⟨by omega, hann⟩

/-- The buffers take all bytes; a new one is allocated when the last is full. -/
theorem writeBuffers_ok {fuel : ℕ} : ∀ {pre free : List ℕ} {bip : ℕ} {buf : List UInt8} {ret : ℕ} {ph : CharPipeHalf},
    Chained ph (pre ++ [bip]) free → (∀ b ∈ pre, 0 < (ph.cb b).count) → 0 < buf.length → buf.length ≤ fuel →
    ((ph.cb bip).count = (ph.cb bip).size → buf.length < fuel) →
    ∃ ph' chain' free', writeBuffers fuel bip buf ret ph = (ret + buf.length, ph') ∧ Chained ph' chain' free' ∧
      held ph' chain' = held ph (pre ++ [bip]) ++ buf ∧ ph'.calls = ph.calls ∧ ∀ b ∈ chain', 0 < (ph'.cb b).count := by
  induction fuel with
  | zero =>
    intro pre free bip buf ret ph _ _ hpos hfuel
    omega
  | succ fuel ih =>
    intro pre free bip buf ret ph h hpre hpos hfuel hfull
    obtain ⟨hcb, hsize⟩ := h.cbs bip (mem_append_right _ (mem_singleton_self _))
    obtain ⟨hlen2, hcb', hsize', hcontents⟩ := CBuffer.write_ok hcb buf
    have hcount := hcb.count
    have hbip : bip ∉ pre := by
      have hdisj := (nodup_append.1 (nodup_append.1 h.nodup).1).2.2
      exact fun hmem => hdisj bip hmem bip (mem_singleton_self _) rfl
    obtain ⟨ph₁, hph₁⟩ : ∃ ph₁ : CharPipeHalf,
      ph₁ = { ph with cb := update ph.cb bip ((ph.cb bip).write buf).2 } :=
      ⟨_, rfl⟩
    have h₁ : Chained ph₁ (pre ++ [bip]) free := by
      rw [hph₁]
      exact h.setCb bip hcb' (hsize'.trans hsize)
    have hself : ph₁.cb bip = ((ph.cb bip).write buf).2 := by
      rw [hph₁]
      exact update_self _ _ _
    have hothers : ∀ b ∈ pre, ph₁.cb b = ph.cb b := by
      intro b hb
      rw [hph₁]
      exact update_of_ne (ne_of_mem_of_not_mem hb hbip) _ _
    have hheld : held ph₁ (pre ++ [bip]) =
      held ph (pre ++ [bip]) ++ buf.take ((ph.cb bip).size - (ph.cb bip).count) := by
      simp only [held, flatMap_append, flatMap_singleton, hself, hcontents, append_assoc]
      congr 1
      exact flatMap_congr fun b hb => by rw [hothers b hb]
    have hpos₁ : ∀ b ∈ pre ++ [bip], 0 < (ph₁.cb b).count := by
      intro b hb
      rcases mem_append.1 hb with hb | hb
      · rw [hothers b hb]
        exact hpre b hb
      · obtain rfl := mem_singleton.1 hb
        have hcl := congrArg List.length hcontents
        rw [CBuffer.length_contents, length_append, CBuffer.length_contents, length_take] at hcl
        rw [hself]
        have hsz : (ph.cb b).size = 512 := hsize
        omega
    rw [writeBuffers, if_neg (by omega)]
    simp only [← hph₁, length_drop]
    by_cases hdone : buf.length - ((ph.cb bip).write buf).1 = 0
    · rw [if_pos hdone]
      refine ⟨ph₁, pre ++ [bip], free, ?_, h₁, ?_, by rw [hph₁], hpos₁⟩
      · congr 1
        omega
      · rw [hheld, take_of_length_le (by omega)]
    · rw [if_neg hdone]
      obtain ⟨b, ph₂, free₂, halloc, hnew, hkept, hcalls⟩ := h₁.alloc
      simp only [halloc]
      obtain ⟨n, hn⟩ : ∃ n, n = ((ph.cb bip).write buf).1 := ⟨_, rfl⟩
      rw [← hn] at hlen2 hdone ⊢
      have hempty : (ph₂.cb b).count = 0 := by
        rw [← CBuffer.length_contents, hnew.empty]
        rfl
      have hsz : (ph₂.cb b).size = 512 := hnew.cb.2
      obtain ⟨ph', chain', free', hrun, hchained, hheld', hcalls', hpos'⟩ :=
        @ih (pre ++ [bip]) free₂ b (buf.drop n) (ret + n) _
        hnew.snoc (fun c hc => by
          change 0 < (ph₂.cb c).count
          rw [hkept c hc]
          exact hpos₁ c hc)
        (by rw [length_drop]; omega) (by rw [length_drop]; omega) (fun he => by
          change (ph₂.cb b).count = (ph₂.cb b).size at he
          omega)
      refine ⟨ph', chain', free', ?_, hchained, ?_, ?_, hpos'⟩
      · rw [hrun, length_drop]
        congr 1
        omega
      · rw [hheld']
        have hlast : held { ph₂ with bipLast := some b, next := update ph₂.next bip (some b) }
          (pre ++ [bip] ++ [b]) =
            held ph₁ (pre ++ [bip]) := by
          rw [held, flatMap_append, flatMap_singleton]
          change _ ++ (ph₂.cb b).contents = _
          rw [hnew.empty, append_nil]
          exact flatMap_congr fun c hc => by
            change (ph₂.cb c).contents = _
            rw [hkept c hc]
        rw [hlast, hheld, append_assoc]
        congr 1
        have hroom : (ph.cb bip).size - (ph.cb bip).count = n := by omega
        rw [hroom, take_append_drop]
      · rw [hcalls']
        change ph₂.calls = _
        rw [hcalls, hph₁]

/-- **A half between two calls**: a sound chain without empty buffers. -/
structure PipeOK (ph : CharPipeHalf) (chain free : List ℕ) : Prop extends Chained ph chain free where
  pos : ∀ b ∈ chain, 0 < (ph.cb b).count

/-- **`charpipehalf_write` takes all its bytes**: the peer gets the first ones if nothing is held, and the chain the
others. -/
theorem charpipehalfWrite_ok (hpeer : hd.peer = true) (hread : hd.peerRead = true) (hcan : hd.peerCanRead = true)
    (h : PipeOK ph chain free) (buf : List UInt8) :
    ∃ ph' chain' free' calls sent, charpipehalfWrite hd can buf ph = (buf.length, ph') ∧ PipeOK ph' chain' free' ∧
      ph'.calls = ph.calls ++ calls ∧ Passes calls sent ∧ Announced 0 calls ∧
      held ph chain ++ buf = sent ++ held ph' chain' := by
  rcases eq_nil_or_concat chain with rfl | ⟨pre, bip, hchain⟩
  · have hlast : ph.bipLast = none := h.last
    obtain ⟨sent, rest, calls, asked, hbuf, hrun, hpass, hann⟩ :=
      @writeDirect_ok _ can hcan buf.length buf 0 ph le_rfl
    obtain ⟨ph₁, hph₁⟩ : ∃ ph₁ : CharPipeHalf, ph₁ = { ph with asked := asked, calls := ph.calls ++ calls } := ⟨_, rfl⟩
    have h₁ : PipeOK ph₁ [] free := by
      rw [hph₁]
      exact ⟨⟨h.first, h.last, h.freeList, h.nodup, h.fresh, h.cbs⟩, h.pos⟩
    have hcalls₁ : ph₁.calls = ph.calls ++ calls := by rw [hph₁]
    have hlast₁ : ph₁.bipLast = none := h₁.last
    rw [charpipehalfWrite, if_pos ⟨hlast, hpeer, hread⟩, hrun, ← hph₁]
    by_cases hdone : rest.length = 0
    · obtain rfl := eq_nil_of_length_eq_zero hdone
      exact ⟨ph₁, [], free, calls, sent, by simp [hbuf], h₁, hcalls₁, hpass, hann, by simp [held, hbuf]⟩
    · obtain ⟨b, ph₂, free₂, halloc, hnew, -, hcalls⟩ := h₁.toChained.alloc
      obtain ⟨ph', chain', free', hrun', hchained, hheld, hcalls', hpos⟩ :=
        @writeBuffers_ok (rest.length + 1) [] _ _ rest (0 + sent.length) _ hnew.start
          (by simp) (by omega) (by omega) (fun _ => Nat.lt_succ_self _)
      simp only [if_neg hdone, hlast₁, halloc]
      refine ⟨ph', chain', free', calls, sent, ?_, ⟨hchained, hpos⟩, ?_, hpass, hann, ?_⟩
      · rw [hrun', hbuf, length_append, Nat.zero_add]
      · rw [hcalls', ← hcalls₁]
        exact hcalls
      · rw [hheld, hbuf]
        change sent ++ rest = sent ++ ((ph₂.cb b).contents ++ [] ++ rest)
        rw [hnew.empty]
        rfl
  · subst hchain
    rw [concat_eq_append] at h ⊢
    have hlast : ph.bipLast = some bip := by rw [h.last, List.getLast?_concat]
    simp only [charpipehalfWrite, hlast, reduceCtorEq, false_and, if_false]
    by_cases hdone : buf.length = 0
    · obtain rfl := eq_nil_of_length_eq_zero hdone
      exact ⟨ph, pre ++ [bip], free, [], [], rfl, h, (append_nil _).symm, .nil, trivial, by simp⟩
    · obtain ⟨ph', chain', free', hrun, hchained, hheld, hcalls, hpos⟩ :=
        @writeBuffers_ok (buf.length + 1) _ _ _ buf 0 _ h.toChained
          (fun b hb => h.pos b (mem_append_left _ hb)) (by omega) (by omega) (fun _ => Nat.lt_succ_self _)
      rw [if_neg hdone, hrun, Nat.zero_add]
      exact ⟨ph', chain', free', [], [], rfl, ⟨hchained, hpos⟩, by rw [hcalls, append_nil], .nil, trivial,
        hheld.symm⟩

/-- An empty buffer at the front is freed. -/
theorem Chained.release (h : Chained ph (b :: chain) free) :
    Chained ({ ph with
      bipFirst := ph.next b, bipLast := if ph.next b = none then none else ph.bipLast }.bipBufferFree b) chain
        (b :: free) := by
  obtain ⟨-, hrest⟩ := h.first
  obtain ⟨hchain, hfree, hdisj⟩ := nodup_append.1 h.nodup
  obtain ⟨hb, hchain⟩ := nodup_cons.1 hchain
  have hbfree : b ∉ free := fun hmem => hdisj b mem_cons_self b hmem rfl
  refine ⟨?_, ?_, ?_, ?_, ?_, fun c hc => h.cbs c (mem_cons_of_mem _ hc)⟩
  · exact hrest.congr fun c hc => update_of_ne (ne_of_mem_of_not_mem hc hb) _ _
  · change (if ph.next b = none then none else ph.bipLast) = _
    rw [hrest.head, h.last]
    cases chain with
    | nil => rfl
    | cons c chain => rfl
  · exact h.freeList.push hbfree
  · refine nodup_append.2 ⟨hchain, nodup_cons.2 ⟨hbfree, hfree⟩, fun x hx y hy => ?_⟩
    rcases mem_cons.1 hy with rfl | hy
    · exact ne_of_mem_of_not_mem hx hb
    · exact hdisj x (mem_cons_of_mem _ hx) y hy
  · intro c hc
    refine h.fresh c ?_
    simp only [mem_append, mem_cons] at hc ⊢
    tauto

/-- A round passes on the first bytes of the first buffer, one at least. -/
theorem Chained.passOn (h : Chained ph (b :: chain) free) (hpos : 0 < (ph.cb b).count) {size : ℕ} (hsize : 0 < size) :
    ∃ sent, 0 < sent.length ∧ sent.length ≤ size ∧ Chained (ph.passOn b size) (b :: chain) free ∧
      (ph.passOn b size).calls = ph.calls ++ [.read sent] ∧
      held ph (b :: chain) = sent ++ held (ph.passOn b size) (b :: chain) ∧
        ∀ c ∈ chain, (ph.passOn b size).cb c = ph.cb c := by
  obtain ⟨hcb, hcbsize⟩ := h.cbs b mem_cons_self
  have hb : b ∉ chain := (nodup_cons.1 (nodup_append.1 h.nodup).1).1
  have hpeek := CBuffer.readPeek_pos hcb hpos
  obtain ⟨n, hn⟩ : ∃ n, n = if (ph.cb b).readPeek.1 > size then size else (ph.cb b).readPeek.1 := ⟨_, rfl⟩
  have hle : 0 < n ∧ n ≤ size ∧ n ≤ (ph.cb b).readPeek.1 := by
    rw [hn]
    split_ifs <;> omega
  obtain ⟨hcount, hbytes⟩ := CBuffer.readPeek_ok hcb hle.2.2
  obtain ⟨hok', hsize', hcontents⟩ := CBuffer.readStep_ok hcb hcount
  have hrun : ph.passOn b size = { ph.qemuChrRead ((ph.cb b).readPeek.2 n) with
      cb := update ph.cb b ((ph.cb b).readStep n) } := by
    rw [CharPipeHalf.passOn, hn]
    rfl
  have hothers : ∀ c ∈ chain, (ph.passOn b size).cb c = ph.cb c := by
    intro c hc
    rw [hrun]
    exact update_of_ne (ne_of_mem_of_not_mem hc hb) _ _
  have hlength : ((ph.cb b).readPeek.2 n).length = n := by
    rw [hbytes, length_take, CBuffer.length_contents]
    omega
  refine ⟨(ph.cb b).readPeek.2 n, by omega, by omega, ?_, by rw [hrun]; rfl, ?_, hothers⟩
  · have hset := h.setCb b hok' (hsize'.trans hcbsize)
    rw [hrun]
    exact ⟨hset.first, hset.last, hset.freeList, hset.nodup, hset.fresh, hset.cbs⟩
  · have hself : ((ph.passOn b size).cb b).contents = (ph.cb b).contents.drop n := by
      rw [hrun, ← hcontents]
      exact congrArg CBuffer.contents (update_self _ _ _)
    have hrest : held (ph.passOn b size) chain = held ph chain := held_congr hothers
    change (ph.cb b).contents ++ held ph chain =
      _ ++ (((ph.passOn b size).cb b).contents ++ held (ph.passOn b size) chain)
    rw [hself, hrest, hbytes, ← append_assoc, take_append_drop]

/-- What `charpipehalf_poll` does in at most `m` rounds: it passes on the first bytes of the chain. It keeps to what is
announced if the half has a `chr_can_read`, and breaks the rule without one if there is anything to pass on. -/
def Polls (hd : Handlers) (can : ℕ → ℕ) (m : ℕ) (ph : CharPipeHalf) (chain : List ℕ) : Prop :=
  ∃ ph' chain' free' calls sent, (∀ fuel > m, pollLoop hd can fuel ph = some ph') ∧ PipeOK ph' chain' free' ∧
    ph'.calls = ph.calls ++ calls ∧ Passes calls sent ∧ held ph chain = sent ++ held ph' chain' ∧
    (Announced 0 calls ↔ hd.canRead = true ∨ held ph chain = [])

/-- The end of the chain. -/
theorem Polls.nil (h : Chained ph [] free) (m : ℕ) : Polls hd can m ph [] := by
  refine ⟨ph, [], free, [], [], fun fuel hfuel => ?_, ⟨h, by simp⟩, (append_nil _).symm, .nil, rfl,
    iff_of_true trivial (.inr rfl)⟩
  obtain ⟨k, rfl⟩ := Nat.exists_eq_succ_of_ne_zero (show fuel ≠ 0 by omega)
  have hnone : ph.bipFirst = none := h.first
  simp only [pollLoop, hnone]

/-- A round that frees the first buffer. -/
theorem Polls.release {m : ℕ} (h : Chained ph (b :: chain) free) (hzero : (ph.cb b).count = 0)
    (hnext : ∀ {ph₁ : CharPipeHalf}, Chained ph₁ chain (b :: free) → ph₁.cb = ph.cb → Polls hd can m ph₁ chain) :
    Polls hd can (m + 1) ph (b :: chain) := by
  have hfirst : ph.bipFirst = some b := h.first.1
  have hheld : held ph (b :: chain) = held ph chain := by
    have hnil : (ph.cb b).contents = [] := eq_nil_of_length_eq_zero (by rw [CBuffer.length_contents, hzero])
    change (ph.cb b).contents ++ held ph chain = _
    rw [hnil, nil_append]
  obtain ⟨ph₁, hph₁⟩ : ∃ ph₁ : CharPipeHalf, ph₁ = { ph with
      bipFirst := ph.next b, bipLast := if ph.next b = none then none else ph.bipLast }.bipBufferFree b := ⟨_, rfl⟩
  have hcb₁ : ph₁.cb = ph.cb := by
    rw [hph₁]
    rfl
  have hheld₁ : held ph₁ chain = held ph chain := held_congr fun c _ => by rw [hcb₁]
  obtain ⟨ph', chain', free', calls, sent, hrun, hok, hcalls, hpass, heq, hann⟩ := hnext (hph₁ ▸ h.release) hcb₁
  refine ⟨ph', chain', free', calls, sent, fun fuel hfuel => ?_, hok, ?_, hpass, ?_, ?_⟩
  · obtain ⟨k, rfl⟩ := Nat.exists_eq_succ_of_ne_zero (show fuel ≠ 0 by omega)
    rw [← hrun k (by omega), hph₁]
    simp only [pollLoop, hfirst, CBuffer.readAvail, hzero, if_true]
  · rw [hcalls, hph₁]
    rfl
  · rw [hheld, ← hheld₁, heq]
  · rw [hann, hheld, hheld₁]

/-- A round that passes on `size` bytes at most, behind the calls `before`. -/
theorem Polls.round {m size : ℕ} {ph₁ : CharPipeHalf} {before : List PeerCall} (h₁ : Chained ph₁ (b :: chain) free)
    (hcount : 0 < (ph.cb b).count) (hsize : 0 < size) (hcb : ph₁.cb = ph.cb) (hcalls₁ : ph₁.calls = ph.calls ++ before)
    (hbefore : passed before = [])
      (hrun₁ : ∀ fuel, pollLoop hd can (fuel + 1) ph = pollLoop hd can fuel (ph₁.passOn b size))
    (hann₁ : ∀ sent, 0 < sent.length → sent.length ≤ size → (Announced 0 (before ++ [.read sent]) ↔ hd.canRead = true))
    (hnext : ∀ {ph₂ : CharPipeHalf}, Chained ph₂ (b :: chain) free → (∀ c ∈ chain, ph₂.cb c = ph.cb c) →
      (held ph₂ (b :: chain)).length < (held ph (b :: chain)).length → Polls hd can m ph₂ (b :: chain)) :
    Polls hd can (m + 1) ph (b :: chain) := by
  have hheld₁ : held ph₁ (b :: chain) = held ph (b :: chain) := held_congr fun c _ => by rw [hcb]
  obtain ⟨sent, hsent, hle, h₂, hcalls₂, hheld₂, hothers⟩ := h₁.passOn (by rw [hcb]; exact hcount) hsize
  rw [hheld₁] at hheld₂
  have hlen := congrArg List.length hheld₂
  rw [length_append] at hlen
  obtain ⟨ph', chain', free', calls, sent', hrun, hok, hcalls, hpass, heq, hann⟩ :=
    hnext h₂ (fun c hc => by rw [hothers c hc, hcb]) (by omega)
  have hquiet : allowance 0 (before ++ [.read sent]) = 0 := by
    rw [allowance_append]
    rfl
  refine ⟨ph', chain', free', before ++ [.read sent] ++ calls, sent ++ sent', fun fuel hfuel => ?_, hok, ?_,
    ⟨?_, ?_⟩, ?_, ?_⟩
  · obtain ⟨k, rfl⟩ := Nat.exists_eq_succ_of_ne_zero (show fuel ≠ 0 by omega)
    rw [hrun₁]
    exact hrun k (by omega)
  · rw [hcalls, hcalls₂, hcalls₁]
    simp only [append_assoc]
  · rw [passed_append, passed_append, hbefore, hpass.bytes]
    change sent ++ [] ++ sent' = _
    rw [append_nil]
  · rw [allowance_append, hquiet, hpass.quiet]
  · rw [hheld₂, heq, append_assoc]
  · have hne : held ph (b :: chain) ≠ [] := by
      rw [hheld₂]
      exact append_ne_nil_of_left_ne_nil (ne_nil_of_length_pos hsent) _
    rw [announced_append, hquiet, hann₁ sent hsent hle, hann]
    simp only [hne, or_false]
    exact ⟨fun h => h.1, fun h => ⟨h, .inl h⟩⟩

/-- **The loop of `charpipehalf_poll` ends**: a round frees a buffer or passes on a byte. -/
theorem pollLoop_ok (hcan : hd.peerCanRead = true) (m : ℕ) : ∀ {ph : CharPipeHalf} {chain free : List ℕ},
    Chained ph chain free → (∀ b ∈ chain.tail, 0 < (ph.cb b).count) → chain.length + (held ph chain).length ≤ m →
    Polls hd can m ph chain := by
  induction m with
  | zero =>
    intro ph chain free h hpos hm
    obtain rfl := eq_nil_of_length_eq_zero (show chain.length = 0 by omega)
    exact .nil h 0
  | succ m ih =>
    intro ph chain free h hpos hm
    cases chain with
    | nil => exact .nil h _
    | cons b chain =>
      have hfirst : ph.bipFirst = some b := h.first.1
      rw [length_cons] at hm
      by_cases hzero : (ph.cb b).count = 0
      · refine .release h hzero fun {ph₁} h₁ hcb => ih h₁ (fun c hc => ?_) ?_
        · rw [hcb]
          exact hpos c (mem_of_mem_tail hc)
        · have hle : (held ph chain).length ≤ (held ph (b :: chain)).length := by
            change _ ≤ ((ph.cb b).contents ++ held ph chain).length
            rw [length_append]
            omega
          rw [show held ph₁ chain = held ph chain from held_congr fun c _ => by rw [hcb]]
          omega
      · have hcount := Nat.pos_of_ne_zero hzero
        have hnext : ∀ {ph₂ : CharPipeHalf}, Chained ph₂ (b :: chain) free → (∀ c ∈ chain, ph₂.cb c = ph.cb c) →
            (held ph₂ (b :: chain)).length < (held ph (b :: chain)).length → Polls hd can m ph₂ (b :: chain) :=
          fun h₂ hothers hlt => ih h₂ (fun c hc => by rw [hothers c hc]; exact hpos c hc)
            (by rw [length_cons]; omega)
        by_cases hown : hd.canRead = true
        · obtain ⟨ph₁, hph₁⟩ : ∃ ph₁ : CharPipeHalf, ph₁ = { ph with
              asked := ph.asked + 1, calls := ph.calls ++ [.canRead (can ph.asked)] } := ⟨_, rfl⟩
          have h₁ : Chained ph₁ (b :: chain) free := by
            rw [hph₁]
            exact ⟨h.first, h.last, h.freeList, h.nodup, h.fresh, h.cbs⟩
          have hcalls₁ : ph₁.calls = ph.calls ++ [.canRead (can ph.asked)] := by rw [hph₁]
          have hcb : ph₁.cb = ph.cb := by rw [hph₁]
          have hround : ∀ fuel, pollLoop hd can (fuel + 1) ph = if can ph.asked = 0 then some ph₁
              else pollLoop hd can fuel
                (ph₁.passOn b (if (ph.cb b).count > can ph.asked then can ph.asked else (ph.cb b).count)) := by
            intro fuel
            simp only [pollLoop, hfirst, CBuffer.readAvail, if_neg hzero, if_pos hown, qemuChrCanRead, hcan,
              Bool.not_true,
              Bool.false_eq_true, if_false, hph₁]
          by_cases hask : can ph.asked = 0
          · -- the peer takes nothing now
            refine ⟨ph₁, b :: chain, free, [.canRead 0], [], fun fuel hfuel => ?_, ⟨h₁, ?_⟩, hask ▸ hcalls₁,
              ⟨rfl, rfl⟩, ?_,
              iff_of_true trivial (.inl hown)⟩
            · obtain ⟨k, rfl⟩ := Nat.exists_eq_succ_of_ne_zero (show fuel ≠ 0 by omega)
              rw [hround, if_pos hask]
            · intro c hc
              rw [hcb]
              rcases mem_cons.1 hc with rfl | hc
              · exact hcount
              · exact hpos c hc
            · exact (held_congr fun c _ => by rw [hcb]).symm
          · refine .round h₁ hcount ?_ hcb hcalls₁ rfl (fun fuel => by rw [hround, if_neg hask]) ?_ hnext
            · split_ifs <;> omega
            · intro sent _ hle
              refine iff_of_true ⟨hle.trans ?_, trivial⟩ hown
              split_ifs <;> omega
        · refine .round h hcount hcount rfl (append_nil _).symm rfl (fun fuel => ?_) ?_ hnext
          · simp only [pollLoop, hfirst, CBuffer.readAvail, if_neg hzero, if_neg hown]
          · intro sent hpos' _
            refine iff_of_false ?_ hown
            rintro ⟨hle, -⟩
            omega

/-- The handlers of a half whose peer has both of its own. -/
def handlers (own : Bool) : Handlers := ⟨true, true, true, own⟩

/-- A half as `charpipehalf_init` leaves it, with some free buffers. -/
structure Fresh (ph : CharPipeHalf) : Prop where
  first : ph.bipFirst = none
  last : ph.bipLast = none
  calls : ph.calls = []
  free : ∃ free : List ℕ, ChainFrom ph.next ph.freeBipBuffers free ∧ free.Nodup ∧ ∀ b ∈ free, b < ph.fresh

/-- **The runs of a half**, with the bytes written so far. `polite` is the condition on the polls so far: the half had a
`chr_can_read` itself, or nothing was held. -/
inductive PipeRun (can : ℕ → ℕ) : CharPipeHalf → List UInt8 → Prop → Prop
  | init {ph : CharPipeHalf} (h : Fresh ph) : PipeRun can ph [] True
  | write {ph : CharPipeHalf} {written : List UInt8} {polite : Prop} (own : Bool) (buf : List UInt8)
      (h : PipeRun can ph written polite) :
        PipeRun can (charpipehalfWrite (handlers own) can buf ph).2 (written ++ buf) polite
  | poll {ph ph' : CharPipeHalf} {written : List UInt8} {polite : Prop} (own : Bool) (h : PipeRun can ph written polite)
      (hrun : ∃ n, ∀ fuel > n, charpipehalfPoll (handlers own) can fuel ph = some ph') :
      PipeRun can ph' written (polite ∧ (own = true ∨ ph.bipFirst = none))

/-- **What a run keeps.** -/
structure PipeRunOK (ph : CharPipeHalf) (written : List UInt8) (polite : Prop) (chain free : List ℕ) : Prop
    extends PipeOK ph chain free where
  bytes : written = passed ph.calls ++ held ph chain
  quiet : allowance 0 ph.calls = 0
  announced : Announced 0 ph.calls ↔ polite

theorem charpipehalfPoll_ok (own : Bool) (h : PipeOK ph chain free) :
    ∃ m, Polls (handlers own) can m ph chain ∧
      ∀ fuel, charpipehalfPoll (handlers own) can fuel ph = pollLoop (handlers own) can fuel ph :=
  ⟨_, pollLoop_ok rfl _ h.toChained (fun b hb => h.pos b (mem_of_mem_tail hb)) le_rfl, fun _ => rfl⟩

/-- Nothing is held exactly if there is no first buffer. -/
theorem PipeOK.held_eq_nil (h : PipeOK ph chain free) : held ph chain = [] ↔ ph.bipFirst = none := by
  rw [h.first.head]
  cases chain with
  | nil => exact iff_of_true rfl rfl
  | cons b chain =>
    refine iff_of_false (fun hnil => ?_) (by simp)
    have hlen := congrArg List.length hnil
    simp only [held, flatMap_cons, length_append, CBuffer.length_contents, length_nil] at hlen
    have hpos := h.pos b mem_cons_self
    omega

theorem pipeRun_ok {written : List UInt8} {polite : Prop} (hrun : PipeRun can ph written polite) :
    ∃ chain free, PipeRunOK ph written polite chain free := by
  induction hrun with
  | init h =>
    obtain ⟨free, hlist, hnodup, hfresh⟩ := h.free
    refine ⟨[], free, ⟨⟨⟨h.first, h.last, hlist, hnodup, hfresh, by simp⟩, by simp⟩, ?_, ?_, ?_⟩⟩
    · rw [h.calls]
      rfl
    · rw [h.calls]
      rfl
    · rw [h.calls]
      exact iff_of_true trivial trivial
  | @write ph written polite own buf _ ih =>
    obtain ⟨chain, free, h⟩ := ih
    obtain ⟨ph', chain', free', calls, sent, hw, hok, hcalls, hpass, hann, heq⟩ :=
      @charpipehalfWrite_ok _ _ _ (handlers own) can rfl rfl rfl h.toPipeOK buf
    rw [hw]
    refine ⟨chain', free', hok, ?_, ?_, ?_⟩
    · rw [h.bytes, append_assoc, heq, hcalls, passed_append, hpass.bytes, append_assoc]
    · rw [hcalls, allowance_append, h.quiet, hpass.quiet]
    · rw [hcalls, announced_append, h.quiet, h.announced]
      exact and_iff_left hann
  | @poll ph ph' written polite own _ hrun ih =>
    obtain ⟨chain, free, h⟩ := ih
    obtain ⟨m, ⟨ph₁, chain', free', calls, sent, hrun₁, hok, hcalls, hpass, heq, hann⟩, hpoll⟩ :=
      @charpipehalfPoll_ok _ _ _ can own h.toPipeOK
    obtain ⟨n, hn⟩ := hrun
    obtain rfl : ph' = ph₁ := by
      have h₁ := hn (m + n + 1) (by omega)
      rw [hpoll, hrun₁ _ (by omega)] at h₁
      exact (Option.some.inj h₁).symm
    refine ⟨chain', free', hok, ?_, ?_, ?_⟩
    · rw [h.bytes, heq, hcalls, passed_append, hpass.bytes, append_assoc]
    · rw [hcalls, allowance_append, h.quiet, hpass.quiet]
    · rw [hcalls, announced_append, h.quiet, h.announced, hann, h.toPipeOK.held_eq_nil]
      rfl

/-- **A half is a flow-controlled queue**, in every run: what is written is what the peer has got and what the chain
of sound buffers holds, in order; the chain ends at `bip_last`; a write takes all its bytes, and a poll ends. No read
passes more than was announced exactly if at each poll the half had a `chr_can_read` itself or held nothing. -/
theorem pipeRun_flow {written : List UInt8} {polite : Prop} (hrun : PipeRun can ph written polite) :
    (∃ chain free, PipeOK ph chain free ∧ written = passed ph.calls ++ held ph chain ∧ ph.bipLast = chain.getLast? ∧
      (ph.bipLast = none ↔ chain = [])) ∧
    (∀ own buf, (charpipehalfWrite (handlers own) can buf ph).1 = buf.length) ∧
    (∀ own, ∃ ph' n, ∀ fuel > n, charpipehalfPoll (handlers own) can fuel ph = some ph') ∧
    (Announced 0 ph.calls ↔ polite) := by
  obtain ⟨chain, free, h⟩ := pipeRun_ok hrun
  refine ⟨⟨chain, free, h.toPipeOK, h.bytes, h.last, by rw [h.last, List.getLast?_eq_none_iff]⟩, fun own buf => ?_,
    fun own => ?_, h.announced⟩
  · obtain ⟨ph', chain', free', calls, sent, hw, -⟩ :=
      @charpipehalfWrite_ok _ _ _ (handlers own) can rfl rfl rfl h.toPipeOK buf
    rw [hw]
  · obtain ⟨m, ⟨ph', chain', free', calls, sent, hrun₁, -⟩, hpoll⟩ := @charpipehalfPoll_ok _ _ _ can own h.toPipeOK
    exact ⟨ph', m, fun fuel hfuel => by rw [hpoll, hrun₁ fuel hfuel]⟩

/-- A half without buffers. -/
def emptyHalf : CharPipeHalf := ⟨fun _ => none, fun _ => CBuffer.reset (fun _ => 0) 0, none, 0, none, none, 0, []⟩

theorem fresh_emptyHalf : Fresh emptyHalf := ⟨rfl, rfl, rfl, [], rfl, nodup_nil, by simp⟩

/-- The peer cannot take the two bytes. -/
theorem pipeRun_flow_held : let ph := (charpipehalfWrite (handlers true) (fun _ => 0) [1, 2] emptyHalf).2
    PipeRun (fun _ => 0) ph [1, 2] True ∧ Announced 0 ph.calls :=
  let hrun := PipeRun.write true [1, 2] (.init fresh_emptyHalf)
  ⟨hrun, (pipeRun_flow hrun).2.2.2.2 trivial⟩

/-- Without a `chr_can_read` of its own, the half passes two bytes to a peer that takes none. -/
theorem pipeRun_notAnnounced : ¬ ∀ (can : ℕ → ℕ) (ph : CharPipeHalf) (written : List UInt8) (polite : Prop),
    PipeRun can ph written polite → Announced 0 ph.calls := by
  intro hall
  let ph := (charpipehalfWrite (handlers true) (fun _ => 0) [1, 2] emptyHalf).2
  let ph' := (charpipehalfPoll (handlers false) (fun _ => 0) 3 ph).getD ph
  have hpoll : ∀ fuel > 2, charpipehalfPoll (handlers false) (fun _ => 0) fuel ph = some ph' := by
    intro fuel hfuel
    obtain ⟨k, rfl⟩ := Nat.exists_eq_add_of_lt hfuel
    rw [show 2 + k + 1 = k + 3 by omega]
    rfl
  have hrun := PipeRun.poll false (.write true [1, 2] (.init fresh_emptyHalf)) ⟨2, hpoll⟩
  obtain ⟨hle, -⟩ : 2 ≤ 0 ∧ True := hall _ _ _ _ hrun
  exact absurd hle (by decide)

end Emulator.Chardev
