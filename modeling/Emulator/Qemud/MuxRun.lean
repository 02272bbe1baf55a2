import Emulator.Qemud.MuxClient

/-!
# Runs of the multiplexer

* `controlRecv_ok`, `closeIfClient_ok`, `disconnectAll_ok`, `step_ok`: every event
  keeps `MuxRep`;
* `run_ok`: so does every run;
* `multiplexer_consistent`: what this says about the lists, counters and back
  pointers of every state that is reached.
-/

namespace Emulator.Qemud

open Function QemudMultiplexer List Option

variable {m : QemudMultiplexer} {g : List ClientPtr} {svs : List ServicePtr}
  {sl : ServicePtr → List ClientPtr} {ctl : ClientPtr}

theorem parseConnect_pos {msg : List UInt8} {offset : ℕ} {name : List UInt8} {channel : ℤ}
    (h : parseConnect msg offset = some (name, channel)) : 0 < channel := by
  unfold parseConnect at h
  simp only at h
  split at h
  · exact nomatch h
  · split_ifs at h with h1 h2
    simp only [Option.some.injEq, Prod.mk.injEq] at h
    omega

/-- **Control messages** keep the lists. -/
theorem controlRecv_ok (h : MuxRep m g svs sl ctl) (msg : List UInt8) (ans : ServConnect) :
    ∃ m' g' sl', qemudMultiplexerControlRecv m msg ans = some m' ∧ MuxRep m' g' svs sl' ctl := by
  unfold qemudMultiplexerControlRecv
  split_ifs with h1 h2 h3 h4
  · cases hp : parseConnect msg 8 with
    | none => exact ⟨m, g, sl, rfl, h⟩
    | some r =>
      obtain ⟨name, channel⟩ := r
      obtain ⟨m', ret, hc, -, -, g', sl', hrep⟩ := connect_ok h name (parseConnect_pos hp) ans
      simp only [hc, bind_eq_bind, bind_some]
      split_ifs <;> exact ⟨_, g', sl', rfl, hrep.output _ _⟩
  · simp only
    split_ifs with hid
    · exact ⟨m, g, sl, rfl, h⟩
    · exact disconnect_ok h (by omega)
  · cases hp : parseConnect msg 11 with
    | none => exact ⟨m, g, sl, rfl, h⟩
    | some r =>
      obtain ⟨name, channel⟩ := r
      obtain ⟨m', ret, hc, -, -, g', sl', hrep⟩ := connect_ok (h.output .legacy m.out)
        (if name = ascii "control" then ascii "hw-control" else name) (parseConnect_pos hp) ans
      cases hver : m.version with
      | normal => exact ⟨m, g, sl, rfl, h⟩
      | unknown => exact ⟨m', g', sl', by simp only [bind_eq_bind, hc, bind_some], hrep⟩
      | legacy => exact ⟨m', g', sl', by simp only [bind_eq_bind, hc, bind_some], hrep⟩
  · exact ⟨m, g, sl, rfl, h⟩
  · exact ⟨_, g, sl, rfl, h.output _ _⟩

/-- A packet on channel 0 goes to the control client, which is not framed. -/
theorem serialRecv_control (h : MuxRep m g svs sl ctl) (msg : List UInt8) (ans : ServConnect) :
    qemudMultiplexerSerialRecv m 0 msg ans = qemudMultiplexerControlRecv m msg ans := by
  obtain ⟨y, hy, hyc, hys, hyf, hyr⟩ := h.control
  rcases clientWalk h 0 with ⟨-, hno⟩ | ⟨k, c, x, hx, hxc, hwalk⟩
  · exact absurd hyc (hno ctl y hy)
  · obtain rfl : c = ctl := by
      by_contra hc
      have := (h.owned c x hx hc).1
      omega
    obtain rfl := Option.some.inj (hx.symm.trans hy)
    have hrecv : qemudClientRecv x msg = some (x, [msg]) := by
      simp only [qemudClientRecv, hyf, hyr, Bool.false_eq_true, not_false_eq_true, if_true]
    have hset : m.setClient c x = m := by
      have : update m.mem c (some x) = m.mem := by rw [← hx, update_eq_self]
      simp only [setClient, this]
    simp only [qemudMultiplexerSerialRecv, bind_eq_bind, hwalk, bind_some, hx, hrecv, hset, hys,
      if_true, foldlM_cons, foldlM_nil]
    cases qemudMultiplexerControlRecv m msg ans <;> rfl

/-- **A client closed by its service.** -/
theorem clientClose_ok (h : MuxRep m g svs sl ctl) {c : ClientPtr} {x : QemudClient} {s : ServicePtr}
    (hx : m.mem c = some x) (hs : x.service = some s) :
    ∃ m', qemudClientClose m c = some m' ∧
      MuxRep m' (g.erase c) svs (update sl s ((sl s).erase c)) ctl := by
  have hc : c ≠ ctl := by
    rintro rfl
    obtain ⟨y, hy, -, hys, -⟩ := h.control
    obtain rfl := Option.some.inj (hx.symm.trans hy)
    rw [hs] at hys
    exact nomatch hys
  have hset : m.setClient c { x with channel := x.channel } = m := by
    have : update m.mem c (some x) = m.mem := by rw [← hx, update_eq_self]
    simp only [setClient, this]
  have := h.disconnect hx hc hs x.channel
  rwa [hset] at this

theorem closeIfClient_ok (h : MuxRep m g svs sl ctl) (c : ClientPtr) :
    ∃ m' g' sl', closeIfClient m c = some m' ∧ MuxRep m' g' svs sl' ctl := by
  unfold closeIfClient
  cases hx : m.mem c with
  | none => exact ⟨m, g, sl, rfl, h⟩
  | some x =>
    simp only
    cases hs : x.service with
    | none => exact ⟨m, g, sl, rfl, h⟩
    | some s =>
      obtain ⟨m', hm', hrep⟩ := clientClose_ok h hx hs
      exact ⟨m', _, _, by simpa using hm', hrep⟩

/-- **A service closes all its clients**: each time the first of its list goes. -/
theorem disconnectAll_ok (s : ServicePtr) (fuel : ℕ) :
    ∀ {m : QemudMultiplexer} {g : List ClientPtr} {sl : ServicePtr → List ClientPtr},
      MuxRep m g svs sl ctl → g.length < fuel →
      ∃ m' g' sl', disconnectAll fuel m s = some m' ∧ MuxRep m' g' svs sl' ctl := by
  induction fuel with
  | zero => intro m g sl _ hf; exact absurd hf (Nat.not_lt_zero _)
  | succ fuel ih =>
    intro m g sl h hf
    unfold disconnectAll
    cases hsv : m.servMem s with
    | none => exact ⟨m, g, sl, rfl, h⟩
    | some sv =>
      simp only
      have hok := h.services.ok s sv hsv
      have hhead : m.readServ (.clients s) = some sv.clients := by simp only [readServ, hsv, map_some]
      cases hcl : sv.clients with
      | none => exact ⟨m, g, sl, rfl, h⟩
      | some c =>
        have hc : c ∈ sl s := by
          have hl := hok.linked
          cases hsl : sl s with
          | nil =>
            rw [hsl] at hl
            have := hhead.symm.trans hl
            rw [hcl] at this
            exact absurd (Option.some.inj this) (some_ne_none c)
          | cons a l =>
            rw [hsl] at hl
            have := hhead.symm.trans hl.1
            rw [hcl] at this
            rw [Option.some.inj (Option.some.inj this)]
            exact mem_cons_self
        obtain ⟨x, hx, hxs⟩ := map_eq_some_iff.1 (hok.owner c hc)
        obtain ⟨m', hm', hrep⟩ := clientClose_ok h hx hxs
        have hcg : c ∈ g := h.mem_global (by rw [hsv]; rfl) hc
        have hlen : (g.erase c).length < fuel := by
          have := length_pos_of_mem hcg
          rw [length_erase_of_mem hcg]
          omega
        obtain ⟨m'', g', sl', hm'', hrep'⟩ := ih hrep hlen
        refine ⟨m'', g', sl', ?_, hrep'⟩
        simp only [hm', bind_eq_bind, bind_some]
        exact hm''

/-- **`qemud_service_register`** adds a service without clients. -/
theorem serviceNew_ok (h : MuxRep m g svs sl ctl) (name : List UInt8) (maxClients : ℤ) :
    MuxRep (qemudServiceNew m name maxClients) g (m.servTop :: svs) (update sl m.servTop []) ctl := by
  have hfresh : m.servTop ∉ svs := fun hs => absurd (h.services.lt _ hs) (lt_irrefl _)
  have hmem : ∀ s, (qemudServiceNew m name maxClients).servMem s =
      if s = m.servTop then some ⟨name, maxClients, 0, none, m.services⟩ else m.servMem s :=
    fun s => servMem_setService _ _ _ _
  have hold : ∀ s sv, m.servMem s = some sv → s ≠ m.servTop := by
    rintro s sv hs rfl
    exact hfresh ((h.services.live _).2 (by rw [hs]; rfl))
  refine ⟨⟨h.global.congr rfl fun _ _ => rfl, ⟨⟨rfl, ?_⟩, nodup_cons.2 ⟨hfresh, h.services.nodup⟩, fun s => ?_,
    fun s hs => ?_, fun s sv hsv => ?_⟩, h.live, h.lt⟩, h.control, fun c x hx hc => ?_⟩
  · have hcell : (qemudServiceNew m name maxClients).readService (.next m.servTop) = m.readService .services := by
      simp only [readService, hmem, if_true, map_some]
    have hg : ∀ s ∈ svs, (qemudServiceNew m name maxClients).readService (.next s) = m.readService (.next s) := by
      intro s hs
      simp only [readService, hmem]
      rw [if_neg]
      rintro rfl
      exact hfresh hs
    have hl := h.services.linked
    cases svs with
    | nil => exact hcell.trans hl
    | cons a l =>
      exact ⟨hcell.trans hl.1, hl.2.congr (hg a mem_cons_self) fun b hb => hg b (mem_cons_of_mem _ hb)⟩
  · rw [hmem, mem_cons, h.services.live]
    split_ifs with hs
    · simp [hs]
    · simp [hs]
  · rcases mem_cons.1 hs with rfl | hs
    · exact Nat.lt_succ_self _
    · exact Nat.lt_succ_of_lt (h.services.lt s hs)
  · rw [hmem] at hsv
    split_ifs at hsv with hs
    · subst hs
      obtain rfl := Option.some.inj hsv
      rw [update_self]
      refine ⟨?_, nodup_nil, rfl, fun hpos => le_of_lt hpos, fun c hc => absurd hc not_mem_nil⟩
      simp only [Linked, readServ, hmem, if_true, map_some]
    · rw [update_of_ne hs]
      exact (h.services.ok s sv hsv).congr (by rw [hmem, if_neg hs]) fun _ _ => rfl
  · obtain ⟨hpos, s, hs, hsv, hcs⟩ := h.owned c x hx hc
    obtain ⟨sv, hsv⟩ := isSome_iff_exists.1 hsv
    have hne := hold s sv hsv
    refine ⟨hpos, s, hs, ?_, ?_⟩
    · rw [hmem, if_neg hne, hsv]; rfl
    · rw [update_of_ne hne]; exact hcs

/-- **Every event keeps the lists.** -/
theorem step_ok (h : MuxRep m g svs sl ctl) (ev : Event) :
    ∃ m' g' svs' sl', step m ev = some m' ∧ MuxRep m' g' svs' sl' ctl := by
  cases ev with
  | control version msg ans =>
    have hv := h.output version m.out
    obtain ⟨m', g', sl', hm', hrep⟩ := controlRecv_ok hv msg ans
    exact ⟨m', g', svs, sl', (serialRecv_control hv msg ans).trans hm', hrep⟩
  | close c =>
    obtain ⟨m', g', sl', hm', hrep⟩ := closeIfClient_ok h c
    exact ⟨m', g', svs, sl', hm', hrep⟩
  | disconnectAll s =>
    obtain ⟨m', g', sl', hm', hrep⟩ := disconnectAll_ok s (m.top + 1) h h.length_lt
    exact ⟨m', g', svs, sl', hm', hrep⟩
  | register name maxClients => exact ⟨_, g, _, _, rfl, serviceNew_ok h name maxClients⟩

theorem run_ok (evs : List Event) : ∀ {m : QemudMultiplexer} {g : List ClientPtr} {svs : List ServicePtr}
    {sl : ServicePtr → List ClientPtr}, MuxRep m g svs sl ctl →
      ∃ m' g' svs' sl', run m evs = some m' ∧ MuxRep m' g' svs' sl' ctl := by
  induction evs with
  | nil => intro m g svs sl h; exact ⟨m, g, svs, sl, rfl, h⟩
  | cons ev evs ih =>
    intro m g svs sl h
    obtain ⟨m₁, g₁, svs₁, sl₁, h1, hrep₁⟩ := step_ok h ev
    obtain ⟨m₂, g₂, svs₂, sl₂, h2, hrep₂⟩ := ih hrep₁
    refine ⟨m₂, g₂, svs₂, sl₂, ?_, hrep₂⟩
    unfold run
    rw [foldlM_cons, h1]
    exact h2

/-- The multiplexer starts with the control client alone. -/
theorem init_ok (pick : ClientPtr) :
    ∃ m ctl, qemudMultiplexerInit pick = some m ∧ MuxRep m [ctl] [] (fun _ => []) ctl := by
  have hempty : Lists ⟨.unknown, none, none, fun _ => none, 0, fun _ => none, 0, []⟩ [] [] (fun _ => []) :=
    ⟨⟨rfl, trivial, nodup_nil⟩, ⟨rfl, nodup_nil, fun s => by simp, fun s hs => absurd hs not_mem_nil,
      fun s sv hs => nomatch hs⟩, fun c => by simp, fun c hc => absurd hc not_mem_nil⟩
  obtain ⟨m, c, x, hm, hl, -, hx, hcore, -, -⟩ := clientAlloc_ok hempty 0 true false pick
  obtain ⟨h1, h2, h3, h4⟩ := core_eq hcore
  refine ⟨m, c, ?_, hl, ⟨x, hx, h1, h2, h3, h4⟩, fun a z hz hac => ?_⟩
  · simp only [qemudMultiplexerInit, hm, bind_eq_bind, bind_some]
  · have := (hl.live a).1 (by rw [hz]; rfl)
    exact absurd (by simpa using this) hac

/-- **Consistent lists**, counters and back pointers: `g` is the global list, `svs`
are the services, `sl` their client lists and `ctl` is the control client. -/
structure Consistent (m : QemudMultiplexer) (g : List ClientPtr) (svs : List ServicePtr)
    (sl : ServicePtr → List ClientPtr) (ctl : ClientPtr) : Prop where
  global : Linked m.readLink ClientLink.next .clients g
  services : Linked m.readService ServiceLink.next .services svs
  clients : ∀ s ∈ svs, Linked m.readServ ServLink.nextServ (.clients s) (sl s)
  registered : ∀ s, s ∈ svs ↔ (m.servMem s).isSome
  counted : ∀ s sv, m.servMem s = some sv → sv.numClients = (sl s).length
  bounded : ∀ s sv, m.servMem s = some sv → 0 < sv.maxClients → sv.numClients ≤ sv.maxClients
  control : ∃ x, m.mem ctl = some x ∧ x.channel = 0 ∧ g.count ctl = 1 ∧ ∀ s ∈ svs, ctl ∉ sl s
  once : ∀ c, (m.mem c).isSome → c ≠ ctl →
    g.count c = 1 ∧ ∃ s ∈ svs, (sl s).count c = 1 ∧ ∀ t ∈ svs, c ∈ sl t → t = s
  removed : ∀ c, m.mem c = none → c ∉ g ∧ ∀ s ∈ svs, c ∉ sl s
  backPointers : ∀ c x, m.mem c = some x → m.readLink x.pref = some (some c)

theorem MuxRep.consistent (h : MuxRep m g svs sl ctl) : Consistent m g svs sl ctl := by
  have hserv : ∀ s ∈ svs, ∃ sv, m.servMem s = some sv ∧ ServiceOk m s sv (sl s) := by
    intro s hs
    obtain ⟨sv, hsv⟩ := isSome_iff_exists.1 ((h.services.live s).1 hs)
    exact ⟨sv, hsv, h.services.ok s sv hsv⟩
  have howner : ∀ s ∈ svs, ∀ c ∈ sl s, ∀ x, m.mem c = some x → x.service = some s := by
    intro s hs c hc x hx
    obtain ⟨sv, -, hok⟩ := hserv s hs
    have := hok.owner c hc
    rw [hx] at this
    exact Option.some.inj this
  refine ⟨h.global.linked, h.services.linked, fun s hs => ?_, h.services.live,
    fun s sv hsv => (h.services.ok s sv hsv).count,
    fun s sv hsv => (h.services.ok s sv hsv).max, ?_, fun c hc hne => ?_, fun c hc => ⟨?_, fun s hs hcs => ?_⟩,
    fun c x hx => ?_⟩
  · obtain ⟨sv, -, hok⟩ := hserv s hs
    exact hok.linked
  · obtain ⟨y, hy, hyc, hys, -⟩ := h.control
    refine ⟨y, hy, hyc, count_eq_one_of_mem h.global.nodup ((h.live ctl).1 (by rw [hy]; rfl)), fun s hs hcs => ?_⟩
    have := howner s hs ctl hcs y hy
    rw [hys] at this
    exact nomatch this
  · obtain ⟨x, hx⟩ := isSome_iff_exists.1 hc
    obtain ⟨s, sv, hs, hsv, hcs⟩ := servMem_of_mem h hx hne
    refine ⟨count_eq_one_of_mem h.global.nodup ((h.live c).1 hc), s, (h.services.live s).2 (by rw [hsv]; rfl),
      count_eq_one_of_mem (h.services.ok s sv hsv).nodup hcs, fun t ht hct => ?_⟩
    exact Option.some.inj ((howner t ht c hct x hx).symm.trans hs)
  · rw [← h.live, hc]
    exact Bool.false_ne_true
  · have := (h.live c).2 (h.mem_global ((h.services.live s).1 hs) hcs)
    rw [hc] at this
    exact Bool.false_ne_true this
  · obtain ⟨l₁, l₂, hl⟩ := append_of_mem ((h.live c).1 (by rw [hx]; rfl))
    have hlink := h.global.linked
    have hback := h.global.back
    rw [hl] at hlink hback
    have hp := hback.drop.1
    rw [prefOf, hx] at hp
    rw [Option.some.inj hp]
    exact hlink.drop.1

/-- The two states have the same lists, clients, services and counters. -/
def SameLists (m m' : QemudMultiplexer) : Prop :=
  m'.clients = m.clients ∧ m'.services = m.services ∧ m'.mem = m.mem ∧ m'.servMem = m.servMem

/-- The message is `connect:<service>:<id>`. -/
def IsConnect (msg name : List UInt8) (channel : ℤ) : Prop :=
  8 < msg.length ∧ msg.take 8 = ascii "connect:" ∧ parseConnect msg 8 = some (name, channel)

/-- A connect message that is refused, for whatever reason, is answered with a negative number. -/
theorem refused_connect (h : MuxRep m g svs sl ctl) (version : QemudVersion) {msg name : List UInt8} {channel : ℤ}
    (ans : ServConnect) (hmsg : IsConnect msg name channel) :
    ∃ m' ret, qemudMultiplexerConnect { m with version := version } name channel ans = some (m', ret) ∧
      (Refused m name ans → ret < 0) ∧
      (ret < 0 → ∃ m', step m (.control version msg ans) = some m' ∧ SameLists m m') := by
  obtain ⟨hlen, hconnect, hparse⟩ := hmsg
  have hv := h.output version m.out
  obtain ⟨m', ret, hc, hsame, hret, -⟩ := connect_ok hv name (parseConnect_pos hparse) ans
  refine ⟨m', ret, hc, hret, fun hneg => ?_⟩
  obtain rfl := hsame hneg
  have hstep : step m (.control version msg ans) =
      qemudMultiplexerControlRecv { m with version := version, out := m.out } msg ans :=
    serialRecv_control hv msg ans
  rw [hstep]
  unfold qemudMultiplexerControlRecv
  rw [if_pos ⟨hlen, hconnect⟩, hparse]
  simp only [hc, bind_eq_bind, bind_some, if_pos hneg]
  split_ifs
  · exact ⟨_, rfl, rfl, rfl, rfl, rfl⟩
  · exact ⟨_, rfl, rfl, rfl, rfl, rfl⟩

/-- **The bookkeeping of the multiplexer is consistent in every run.** From its initial state every sequence of events
is processed to its end, without the use of a freed client; the state that is reached has consistent lists. A connect
request that `qemud_multiplexer_connect` answers with a negative number changes nothing there, and it does where no
service of the name accepts the client. -/
theorem multiplexer_consistent (pick : ClientPtr) (evs : List Event) :
    ∃ m₀ m g svs sl ctl, qemudMultiplexerInit pick = some m₀ ∧ run m₀ evs = some m ∧
      Consistent m g svs sl ctl ∧
      (∀ name channel ans, 0 < channel →
        ∃ m' ret, qemudMultiplexerConnect m name channel ans = some (m', ret) ∧ (ret < 0 → m' = m) ∧
          (Refused m name ans → ret < 0)) ∧
      ∀ version msg name channel ans, IsConnect msg name channel →
        ∃ m' ret, qemudMultiplexerConnect { m with version := version } name channel ans = some (m', ret) ∧
          (Refused m name ans → ret < 0) ∧
          (ret < 0 → ∃ m', step m (.control version msg ans) = some m' ∧ SameLists m m') := by
  obtain ⟨m₀, ctl, hinit, h₀⟩ := init_ok pick
  obtain ⟨m, g, svs, sl, hrun, h⟩ := run_ok evs h₀
  refine ⟨m₀, m, g, svs, sl, ctl, hinit, hrun, h.consistent, fun name channel ans hch => ?_,
    fun version msg name channel ans hmsg => refused_connect h version ans hmsg⟩
  obtain ⟨m', ret, hc, hsame, hret, -⟩ := connect_ok h name hch ans
  exact ⟨m', ret, hc, hsame, hret⟩

end Emulator.Qemud
