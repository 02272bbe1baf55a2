import Emulator.Qemud.MuxInv

/-!
# Connections and disconnections

`MuxRep` ties the global list and the services to the objects that are alive: every
client but the control client is in the list of its service.

* `clientNew_ok`, `clientDisconnect_ok`: a client made and destroyed;
* `connect_ok`, `disconnect_ok`: the requests of the daemon.
-/

namespace Emulator.Qemud

open Function QemudMultiplexer List Option

/-- Both kinds of lists, and the objects that are alive. -/
structure Lists (m : QemudMultiplexer) (g : List ClientPtr) (svs : List ServicePtr)
    (sl : ServicePtr → List ClientPtr) : Prop where
  global : Global m g
  services : Services m svs sl
  live : ∀ c, (m.mem c).isSome ↔ c ∈ g
  lt : ∀ c ∈ g, c < m.top

/-- The multiplexer `m` has the global list `g`, the services `svs` with the client
lists `sl` and the control client `ctl`. -/
structure MuxRep (m : QemudMultiplexer) (g : List ClientPtr) (svs : List ServicePtr)
    (sl : ServicePtr → List ClientPtr) (ctl : ClientPtr) : Prop extends Lists m g svs sl where
  control : ∃ x, m.mem ctl = some x ∧ x.channel = 0 ∧ x.service = none ∧ x.framing = false ∧ x.clieRecv = true
  owned : ∀ c x, m.mem c = some x → c ≠ ctl →
    0 < x.channel ∧ ∃ s, x.service = some s ∧ (m.servMem s).isSome ∧ c ∈ sl s

/-- The record of a client without the links of its lists. -/
def core (x : QemudClient) : QemudClient := rest (offServ x)

theorem core_eq {x y : QemudClient} (h : core x = core y) :
    x.channel = y.channel ∧ x.service = y.service ∧ x.framing = y.framing ∧ x.clieRecv = y.clieRecv := by
  simp only [core, rest, offServ, QemudClient.mk.injEq] at h
  exact ⟨h.1, h.2.2.2.1, h.2.2.2.2.2.2.2.1, h.2.1⟩

variable {sl : ServicePtr → List ClientPtr} {svs : List ServicePtr} {g : List ClientPtr} {m : QemudMultiplexer}
variable {c : ClientPtr} {s : ServicePtr}

theorem Lists.mem_global (h : Lists m g svs sl) (hs : (m.servMem s).isSome) (hc : c ∈ sl s) : c ∈ g := by
  obtain ⟨sv, hsv⟩ := isSome_iff_exists.1 hs
  obtain ⟨x, hx, -⟩ := map_eq_some_iff.1 ((h.services.ok s sv hsv).owner c hc)
  exact (h.live c).1 (by rw [hx]; rfl)

theorem Services.servMem_isSome {m m' : QemudMultiplexer}
    {sl sl' : ServicePtr → List ClientPtr} (h : Services m svs sl) (h' : Services m' svs sl') (s : ServicePtr) :
    (m'.servMem s).isSome ↔ (m.servMem s).isSome := by
  rw [← h.live, ← h'.live]

variable {ctl : ClientPtr}

/-- The control client stays what it is as long as its record does. -/
theorem MuxRep.control_of_core {m m' : QemudMultiplexer} (h : MuxRep m g svs sl ctl)
    (hc : (m'.mem ctl).map core = (m.mem ctl).map core) :
    ∃ x, m'.mem ctl = some x ∧ x.channel = 0 ∧ x.service = none ∧ x.framing = false ∧ x.clieRecv = true := by
  obtain ⟨y, hy, hyc, hys, hyf, hyr⟩ := h.control
  rw [hy] at hc
  obtain ⟨z, hz, hzc⟩ := map_eq_some_iff.1 hc
  obtain ⟨h1, h2, h3, h4⟩ := core_eq hzc
  exact ⟨z, hz, h1.trans hyc, h2.trans hys, h3.trans hyf, h4.trans hyr⟩

theorem MuxRep.owned_of_core {m m' : QemudMultiplexer} (h : MuxRep m g svs sl ctl)
    (hc : (m'.mem c).map core = (m.mem c).map core) {z : QemudClient} (hz : m'.mem c = some z) (hne : c ≠ ctl) :
    0 < z.channel ∧ ∃ s, z.service = some s ∧ (m.servMem s).isSome ∧ c ∈ sl s := by
  rw [hz] at hc
  obtain ⟨w, hw, hwc⟩ := map_eq_some_iff.1 hc.symm
  obtain ⟨h1, h2, -, -⟩ := core_eq hwc
  obtain ⟨hpos, s, hs, hsl, hcs⟩ := h.owned c w hw hne
  exact ⟨h1 ▸ hpos, s, h2 ▸ hs, hsl, hcs⟩

theorem clientAddr_free (h : Lists m g svs sl) (pick : ClientPtr) :
    m.mem (clientAddr m pick) = none := by
  unfold clientAddr
  split_ifs with hp
  · exact isNone_iff_eq_none.1 hp
  · rw [← not_isSome_iff_eq_none, h.live]
    exact fun ht => absurd (h.lt _ ht) (lt_irrefl _)

/-- **`qemud_client_alloc`** puts a new client into the global list. -/
theorem clientAlloc_ok
    (h : Lists m g svs sl) (channel : ℤ) (recv close : Bool)
    (pick : ClientPtr) :
    ∃ m' c x, qemudClientAlloc m channel recv close pick = some (m', c) ∧ Lists m' (c :: g) svs sl ∧
      m.mem c = none ∧ m'.mem c = some x ∧ core x = core (newClient channel recv close) ∧
      m'.servMem = m.servMem ∧ ∀ a, a ≠ c → (m'.mem a).map core = (m.mem a).map core := by
  set c := clientAddr m pick with hcdef
  have hfree : m.mem c = none := clientAddr_free h pick
  have hcg : c ∉ g := by
    rw [← h.live, hfree]
    exact Bool.false_ne_true
  set m₀ : QemudMultiplexer :=
    { m.setClient c (newClient channel recv close) with top := max m.top (c + 1) } with hm₀
  have hmem₀ : ∀ a, m₀.mem a = if a = c then some (newClient channel recv close) else m.mem a :=
    fun a => mem_setClient _ _ _ _
  have hg₀ : Global m₀ g := h.global.congr rfl fun a ha => by
    rw [hmem₀, if_neg]
    rintro rfl
    exact hcg ha
  have hs₀ : Services m₀ svs sl := h.services.congr rfl rfl rfl fun s hs a ha => by
    rw [hmem₀, if_neg]
    rintro rfl
    exact hcg (h.mem_global hs ha)
  obtain ⟨m₁, hp, hg₁, hr⟩ := clientPrepend_ok hg₀ (by rw [hmem₀, if_pos rfl]) hcg
  have hmap : (m₁.mem c).map rest = some (rest (newClient channel recv close)) := by
    rw [hr.mem, hmem₀, if_pos rfl]
    rfl
  obtain ⟨x, hx, hxr⟩ := map_eq_some_iff.1 hmap
  have hother : ∀ a, a ≠ c → (m₁.mem a).map rest = (m.mem a).map rest := by
    intro a ha
    rw [hr.mem, hmem₀, if_neg ha]
  refine ⟨m₁, c, x, ?_, ⟨hg₁, hr.services_ok hs₀, fun a => ?_, fun a ha => ?_⟩, hfree, hx, ?_, hr.servMem,
    fun a ha => ?_⟩
  · change (qemudClientPrepend m₀ c .clients).bind (fun m => some (m, c)) = some (m₁, c)
    rw [hp]
    rfl
  · by_cases hac : a = c
    · simp [hac, hx]
    · have hiso : (m₁.mem a).isSome = (m.mem a).isSome := by
        have := congrArg Option.isSome (hother a hac)
        simpa only [isSome_map] using this
      rw [hiso, h.live, mem_cons, or_iff_right hac]
  · rw [hr.top]
    rcases mem_cons.1 ha with rfl | ha
    · exact lt_of_lt_of_le (Nat.lt_succ_self _) (le_max_right _ _)
    · exact lt_of_lt_of_le (h.lt a ha) (le_max_left _ _)
  · exact congrArg offServ hxr
  · exact map_factor offServ (hother a ha)

variable {channel : ℤ}

/-- **`qemud_client_new`** puts a new client into both lists. -/
theorem clientNew_ok
    (h : MuxRep m g svs sl ctl)
    {sv : QemudService} (hsv : m.servMem s = some sv) (hmax : 0 < sv.maxClients → sv.numClients < sv.maxClients)
    (hch : 0 < channel) (recv close : Bool) (pick : ClientPtr) :
    ∃ m' c, qemudClientNew m s channel recv close pick = some (m', c) ∧ c ≠ ctl ∧
      MuxRep m' (c :: g) svs (update sl s (c :: sl s)) ctl := by
  obtain ⟨m₁, c, x, ha, hl, hfree, hx, hcore, hserv, hother⟩ := clientAlloc_ok h.toLists channel recv close pick
  have hfresh : ∀ t, (m₁.servMem t).isSome → c ∉ sl t := by
    intro t ht hct
    rw [hserv] at ht
    have hcg := (h.live c).2 (h.mem_global ht hct)
    rw [hfree] at hcg
    exact absurd hcg (by decide)
  obtain ⟨m₂, hadd, hs₂, hc₂, ht₂, hm₂⟩ := serviceAddClient_ok hl.services (by rw [hserv]; exact hsv) hx hfresh hmax
  have hctl : c ≠ ctl := by
    rintro rfl
    obtain ⟨y, hy, -⟩ := h.control
    rw [hfree] at hy
    exact nomatch hy
  have hcore₂ : ∀ a, a ≠ c → (m₂.mem a).map core = (m.mem a).map core := by
    intro a hac
    rw [hm₂, if_neg hac]
    exact hother a hac
  refine ⟨m₂, c, ?_, hctl, ⟨⟨?_, hs₂, fun a => ?_, fun a ha => ?_⟩, ?_, ?_⟩⟩
  · unfold qemudClientNew
    rw [ha]
    simp only [bind_eq_bind, bind_some]
    rw [hadd]
    rfl
  · refine hl.global.congr hc₂ fun a _ => ?_
    rw [hm₂]
    split_ifs with hac
    · rw [hac, hx]; rfl
    · rfl
  · rw [← hl.live, hm₂]
    split_ifs with hac
    · rw [hac, hx]; rfl
    · rfl
  · rw [ht₂]; exact hl.lt a ha
  · exact h.control_of_core (hcore₂ ctl hctl.symm)
  · intro a z hz hactl
    by_cases hac : a = c
    · subst hac
      rw [hm₂, if_pos rfl] at hz
      obtain rfl := Option.some.inj hz
      refine ⟨?_, s, rfl, ?_, ?_⟩
      · simp only [(core_eq hcore).1]
        exact hch
      · rw [hl.services.servMem_isSome hs₂, hserv, hsv]; rfl
      · rw [update_self]; exact mem_cons_self
    · obtain ⟨hpos, t, ht, htl, hta⟩ := h.owned_of_core (hcore₂ a hac) hz hactl
      refine ⟨hpos, t, ht, ?_, ?_⟩
      · rw [hl.services.servMem_isSome hs₂, hserv]; exact htl
      · by_cases hts : t = s
        · subst hts
          rw [update_self]; exact mem_cons_of_mem _ hta
        · rw [update_of_ne hts]; exact hta

variable {x : QemudClient}

theorem servMem_of_mem (h : MuxRep m g svs sl ctl) (hx : m.mem c = some x) (hc : c ≠ ctl) :
    ∃ s sv, x.service = some s ∧ m.servMem s = some sv ∧ c ∈ sl s := by
  obtain ⟨-, s, hs, hsv, hcs⟩ := h.owned c x hx hc
  obtain ⟨sv, hsv⟩ := isSome_iff_exists.1 hsv
  exact ⟨s, sv, hs, hsv, hcs⟩

/-- The lists after the client `c` of the service `s` has been freed. -/
theorem Lists.free (hg : Global m g) (hs : Services m svs sl)
    (hlive : ∀ a, a ≠ c → ((m.mem a).isSome ↔ a ∈ g)) (hlt : ∀ a ∈ g, a < m.top) (hcg : c ∉ g)
    (hcs : ∀ s, (m.servMem s).isSome → c ∉ sl s) : Lists (m.free c) g svs sl := by
  have hmem : ∀ a, a ≠ c → (m.free c).mem a = m.mem a := fun a ha => update_of_ne ha _ _
  refine ⟨hg.congr rfl fun a ha => ?_, hs.congr rfl rfl rfl fun s hs' a ha => ?_, fun a => ?_, hlt⟩
  · rw [hmem a fun h => hcg (h ▸ ha)]
  · rw [hmem a fun h => hcs s hs' (h ▸ ha)]
  · by_cases hac : a = c
    · subst hac
      simp [QemudMultiplexer.free, hcg]
    · rw [hmem a hac, hlive a hac]

/-- **`qemud_client_disconnect`** takes the client out of both lists and frees it. -/
theorem clientDisconnect_ok
    (h : Lists m g svs sl)
    {sv : QemudService} (hx : m.mem c = some x) (hxs : x.service = some s) (hsv : m.servMem s = some sv)
    (hc : c ∈ sl s) :
    ∃ m', qemudClientDisconnect m c = some m' ∧
      Lists m' (g.erase c) svs (update sl s ((sl s).erase c)) ∧
      ∀ a, a ≠ c → (m'.mem a).map core = (m.mem a).map core := by
  have hcg : c ∈ g := (h.live c).1 (by rw [hx]; rfl)
  obtain ⟨l₁, l₂, hl⟩ := append_of_mem hcg
  have hglob := h.global
  rw [hl] at hglob
  have hn := nodup_cons.1 (nodup_middle.1 hglob.nodup)
  have herase : g.erase c = l₁ ++ l₂ := by
    rw [hl, erase_append_right _ fun hc => hn.1 (mem_append_left _ hc), erase_cons_head]
  obtain ⟨m₁, hrem, hg₁, hr₁⟩ := clientRemove_ok hglob
  obtain ⟨x₁, hx₁, hxr⟩ : ∃ x₁, m₁.mem c = some x₁ ∧ rest x₁ = rest x := by
    have := hr₁.mem c
    rw [hx] at this
    exact map_eq_some_iff.1 this
  have hserv₁ : x₁.service = some s := by
    have := congrArg QemudClient.service hxr
    exact this.trans hxs
  -- the message to the daemon changes no list, nor does clearing the callbacks
  set m₂ := (if 0 < x₁.channel then sendControl m₁ (ascii "disconnect:" ++ format02x x₁.channel.toNat)
    else m₁).setClient c { x₁ with clieClose := false, clieRecv := false } with hm₂
  have hmem₂ : ∀ a, m₂.mem a = if a = c then some { x₁ with clieClose := false, clieRecv := false } else m₁.mem a := by
    intro a
    rw [hm₂, mem_setClient]
    split_ifs <;> rfl
  have heq₂ : m₂.clients = m₁.clients ∧ m₂.services = m₁.services ∧ m₂.servMem = m₁.servMem ∧
      m₂.servTop = m₁.servTop ∧ m₂.top = m₁.top := by
    rw [hm₂]
    split_ifs <;> exact ⟨rfl, rfl, rfl, rfl, rfl⟩
  obtain ⟨hcl₂, hss₂, hsm₂, hst₂, htop₂⟩ := heq₂
  have hg₂ : Global m₂ (l₁ ++ l₂) := hg₁.congr hcl₂ fun a ha => by
    rw [hmem₂, if_neg]
    rintro rfl
    exact hn.1 ha
  have hs₂ : Services m₂ svs sl := (hr₁.services_ok h.services).congr hss₂ hsm₂ hst₂ fun t _ a _ => by
    rw [hmem₂]
    split_ifs with hac
    · rw [hac, hx₁]; rfl
    · rfl
  have hlt : ∀ a, (m₂.mem a).isSome → a < m₂.top := by
    intro a ha
    rw [htop₂, hr₁.top]
    refine h.lt a ((h.live a).1 ?_)
    have hiso := congrArg Option.isSome (hr₁.mem a)
    simp only [isSome_map] at hiso
    rw [← hiso]
    rw [hmem₂] at ha
    split_ifs at ha with hac
    · rw [hac, hx₁]; rfl
    · exact ha
  obtain ⟨m₃, hsr, hs₃, hcl₃, htop₃, hmem₃⟩ :=
    serviceRemoveClient_ok hs₂ (show m₂.servMem s = some sv by rw [hsm₂, hr₁.servMem]; exact hsv) hlt hc
  obtain ⟨x₃, hx₃, -⟩ : ∃ x₃, m₃.mem c = some x₃ ∧
      offServ x₃ = offServ { x₁ with clieClose := false, clieRecv := false } := by
    have := hmem₃ c
    rw [hmem₂, if_pos rfl] at this
    exact map_eq_some_iff.1 this
  set m₄ := m₃.setClient c { x₃ with service := none } with hm₄
  have hmem₄ : ∀ a, a ≠ c → m₄.mem a = m₃.mem a := fun a ha => by rw [hm₄, mem_setClient, if_neg ha]
  have hcore : ∀ a, a ≠ c → (m₄.mem a).map core = (m.mem a).map core := by
    intro a ha
    rw [hmem₄ a ha]
    calc (m₃.mem a).map core = (m₂.mem a).map core := map_factor rest (hmem₃ a)
      _ = (m₁.mem a).map core := by rw [hmem₂, if_neg ha]
      _ = (m.mem a).map core := map_factor offServ (hr₁.mem a)
  have hcs : ∀ t, (m₃.servMem t).isSome → c ∉ update sl s ((sl s).erase c) t := by
    intro t ht
    by_cases hts : t = s
    · rw [hts, update_self]
      exact fun hc' => absurd rfl ((List.Nodup.mem_erase_iff (h.services.ok s sv hsv).nodup).1 hc').1
    · rw [update_of_ne hts]
      intro hct
      rw [h.services.servMem_isSome hs₃] at ht
      obtain ⟨tv, htv⟩ := isSome_iff_exists.1 ht
      have := (h.services.ok t tv htv).owner c hct
      rw [hx, map_some, hxs] at this
      exact hts (Option.some.inj (Option.some.inj this)).symm
  refine ⟨m₄.free c, ?_, ?_, fun a ha => ?_⟩
  · unfold qemudClientDisconnect
    rw [hrem]
    simp only [bind_eq_bind, bind_some, hx₁, ← hm₂]
    rw [hserv₁]
    simp only [leaveService, hsr, bind_eq_bind, bind_some, hx₃, ← hm₄]
  · rw [herase]
    refine Lists.free ?_ ?_ (fun a ha => ?_) (fun a ha => ?_) hn.1 hcs
    · refine (hg₂.congr hcl₃ fun a _ => map_factor (f := offServ) linkFields (hmem₃ a)).congr rfl fun a ha => ?_
      rw [hmem₄ a fun h => hn.1 (h ▸ ha)]
    · refine hs₃.congr rfl rfl rfl fun t ht a ha => ?_
      rw [hmem₄ a fun h => hcs t ht (h ▸ ha)]
    · have hiso := congrArg Option.isSome (hcore a ha)
      simp only [isSome_map] at hiso
      rw [hiso, h.live, hl]
      simp [ha]
    · rw [hm₄]
      change a < m₃.top
      rw [htop₃, htop₂, hr₁.top]
      refine h.lt a ?_
      rw [hl]
      rcases mem_append.1 ha with ha | ha
      · exact mem_append_left _ ha
      · exact mem_append_right _ (mem_cons_of_mem _ ha)
  · rw [← hcore a ha]
    simp only [free, update_of_ne ha]

/-- A client other than the control client is disconnected, whatever its channel
field has been set to. -/
theorem MuxRep.disconnect
    (h : MuxRep m g svs sl ctl)
    (hx : m.mem c = some x) (hc : c ≠ ctl) (hs : x.service = some s)
    (channel : ℤ) :
    ∃ m', qemudClientDisconnect (m.setClient c { x with channel := channel }) c = some m' ∧
      MuxRep m' (g.erase c) svs (update sl s ((sl s).erase c)) ctl := by
  obtain ⟨s', sv, hxs, hsv, hcs⟩ := servMem_of_mem h hx hc
  obtain rfl : s' = s := Option.some.inj (hxs.symm.trans hs)
  set m₀ := m.setClient c { x with channel := channel } with hm₀
  have hmem₀ : ∀ a, m₀.mem a = if a = c then some { x with channel := channel } else m.mem a :=
    fun a => mem_setClient _ _ _ _
  have hl₀ : Lists m₀ g svs sl := by
    refine ⟨h.global.congr rfl fun a _ => ?_, h.services.congr rfl rfl rfl fun t _ a _ => ?_, fun a => ?_, h.lt⟩
    · exact map_setClient hx (by rfl) a
    · exact map_setClient hx (by rfl) a
    · have hiso := congrArg Option.isSome
        (map_setClient (f := fun _ => ()) (y := { x with channel := channel }) hx rfl a)
      simp only [isSome_map] at hiso
      rw [← h.live, ← hiso]
  obtain ⟨m', hd, hl', hcore⟩ := clientDisconnect_ok hl₀
    (show m₀.mem c = some { x with channel := channel } by rw [hmem₀, if_pos rfl]) hxs
    (show m₀.servMem s' = some sv from hsv) hcs
  have hcore' : ∀ a, a ≠ c → (m'.mem a).map core = (m.mem a).map core := by
    intro a ha
    rw [hcore a ha, hmem₀, if_neg ha]
  refine ⟨m', hd, ⟨hl', ?_, ?_⟩⟩
  · exact h.control_of_core (hcore' ctl hc.symm)
  · intro a z hz hactl
    have hac : a ≠ c := by
      rintro rfl
      have := (hl'.live a).1 (by rw [hz]; rfl)
      exact absurd rfl ((List.Nodup.mem_erase_iff h.global.nodup).1 this).1
    obtain ⟨hpos, t, ht, htl, hta⟩ := h.owned_of_core (hcore' a hac) hz hactl
    refine ⟨hpos, t, ht, (h.services.servMem_isSome hl'.services t).2 htl, ?_⟩
    by_cases hts : t = s'
    · subst hts
      rw [update_self]
      exact (mem_erase_of_ne hac).2 hta
    · rw [update_of_ne hts]; exact hta

/-- What has been written to the serial port and its version play no role. -/
theorem MuxRep.output (h : MuxRep m g svs sl ctl) (v : QemudVersion)
    (out : List UInt8) : MuxRep { m with version := v, out := out } g svs sl ctl :=
  ⟨⟨h.global.congr rfl fun _ _ => rfl, h.services.congr rfl rfl rfl fun _ _ _ _ => rfl, h.live, h.lt⟩,
    h.control, h.owned⟩

theorem MuxRep.length_lt (h : MuxRep m g svs sl ctl) :
    g.length < m.top + 1 :=
  Nat.lt_succ_of_le (length_le_of_lt h.global.nodup h.lt)

/-- The walk for the client of a channel finds it, or there is none. -/
theorem clientWalk
    (h : MuxRep m g svs sl ctl) (channel : ℤ) :
    walk m.readLink .next (fun c => (m.mem c).map fun x => decide (x.channel = channel)) (m.top + 1) .clients =
        some none ∧ (∀ c x, m.mem c = some x → x.channel ≠ channel) ∨
      ∃ k c x, m.mem c = some x ∧ x.channel = channel ∧
        walk m.readLink .next (fun c => (m.mem c).map fun x => decide (x.channel = channel)) (m.top + 1) .clients =
          some (some (k, c)) := by
  have hread : ∀ c ∈ g, ∃ x, m.mem c = some x := fun c hc => h.global.read hc
  cases hfind : g.find? fun c => (m.mem c).map (fun x => decide (x.channel = channel)) == some true with
  | none =>
    have hno : ∀ c ∈ g, ∀ x, m.mem c = some x → x.channel ≠ channel := by
      intro c hc x hx
      have := List.find?_eq_none.1 hfind c hc
      rw [hx] at this
      simpa using this
    refine Or.inl ⟨walk_end h.global.linked h.length_lt fun c hc => ?_, fun c x hx => ?_⟩
    · obtain ⟨x, hx⟩ := hread c hc
      rw [hx, map_some, decide_eq_false (hno c hc x hx)]
    · exact hno c ((h.live c).1 (by rw [hx]; rfl)) x hx
  | some c =>
    obtain ⟨hc, l₁, l₂, hsplit, hbefore⟩ := List.find?_eq_some_iff_append.1 hfind
    obtain ⟨x, hx⟩ := hread c (by rw [hsplit]; simp)
    have hch : x.channel = channel := by
      rw [hx] at hc
      simpa using hc
    refine Or.inr ⟨_, c, x, hx, hch, walk_found (by rw [← hsplit]; exact h.global.linked)
      (by rw [← hsplit]; exact h.length_lt) (fun a ha => ?_) (by rw [hx, map_some, decide_eq_true hch])⟩
    obtain ⟨y, hy⟩ := hread a (by rw [hsplit]; exact mem_append_left _ ha)
    have := hbefore a ha
    rw [hy] at this ⊢
    simpa using this

/-- Setting the framing of a client changes no list. -/
theorem MuxRep.setFraming (h : MuxRep m g svs sl ctl) (hx : m.mem c = some x) (hc : c ≠ ctl) (framing : Bool) :
    MuxRep (m.setClient c (qemudClientSetFraming x framing)) g svs sl ctl := by
  have hsame : ∀ {β : Type} (f : QemudClient → β), f (qemudClientSetFraming x framing) = f x →
      ∀ a, ((m.setClient c (qemudClientSetFraming x framing)).mem a).map f = (m.mem a).map f :=
    fun f hf => map_setClient hx hf
  have hfields : linkFields (qemudClientSetFraming x framing) = linkFields x ∧
      servFields (qemudClientSetFraming x framing) = servFields x ∧
      (qemudClientSetFraming x framing).channel = x.channel ∧
      (qemudClientSetFraming x framing).service = x.service := by
    unfold qemudClientSetFraming
    split_ifs <;> exact ⟨rfl, rfl, rfl, rfl⟩
  refine ⟨⟨h.global.congr rfl fun a _ => hsame _ hfields.1 a,
    h.services.congr rfl rfl rfl fun t _ a _ => hsame _ hfields.2.1 a, fun a => ?_, h.lt⟩, ?_, ?_⟩
  · have hiso := congrArg Option.isSome (hsame (fun _ => ()) rfl a)
    simp only [isSome_map] at hiso
    rw [← h.live, ← hiso]
  · obtain ⟨y, hy, hrest⟩ := h.control
    exact ⟨y, by rw [mem_setClient, if_neg hc.symm]; exact hy, hrest⟩
  · intro a z hz hac
    rw [mem_setClient] at hz
    split_ifs at hz with ha
    · obtain rfl := Option.some.inj hz
      rw [hfields.2.2.1, hfields.2.2.2]
      exact h.owned a x (by rw [ha]; exact hx) hac
    · exact h.owned a z hz hac

/-- **`serv_connect`** refuses, or the new client is in both lists. -/
theorem servConnect_ok
    (h : MuxRep m g svs sl ctl)
    {sv : QemudService} (hsv : m.servMem s = some sv) (hmax : 0 < sv.maxClients → sv.numClients < sv.maxClients)
    (hch : 0 < channel) (ans : ServConnect) :
    (ans = .refuse ∧ servConnect m s channel ans = some (m, false)) ∨
      ∃ m' c, servConnect m s channel ans = some (m', true) ∧
        MuxRep m' (c :: g) svs (update sl s (c :: sl s)) ctl := by
  cases ans with
  | refuse => exact Or.inl ⟨rfl, rfl⟩
  | accept recv close framing pick =>
    obtain ⟨m', c, hnew, hc, hrep⟩ := clientNew_ok h hsv hmax hch recv close pick
    right
    cases framing with
    | none =>
      refine ⟨m', c, ?_, hrep⟩
      simp only [servConnect, hnew, bind_eq_bind, bind_some]
    | some f =>
      obtain ⟨x, hx⟩ := isSome_iff_exists.1 ((hrep.live c).2 mem_cons_self)
      refine ⟨m'.setClient c (qemudClientSetFraming x f), c, ?_, hrep.setFraming hx hc f⟩
      simp only [servConnect, hnew, bind_eq_bind, bind_some, hx]

/-- A connect request that no service accepts: there is no service of that name, or
every one is busy, or its `serv_connect` returns `NULL`. -/
def Refused (m : QemudMultiplexer) (serviceName : List UInt8) (ans : ServConnect) : Prop :=
  ans = .refuse ∨ ∀ s sv, m.servMem s = some sv → cstr sv.name = cstr serviceName →
    0 < sv.maxClients ∧ sv.maxClients ≤ sv.numClients

/-- **`qemud_multiplexer_connect`** ends; when it refuses, or has to, nothing has
changed. -/
theorem connect_ok
    (h : MuxRep m g svs sl ctl) (serviceName : List UInt8)
    (hch : 0 < channel) (ans : ServConnect) :
    ∃ m' ret, qemudMultiplexerConnect m serviceName channel ans = some (m', ret) ∧
      (ret < 0 → m' = m) ∧ (Refused m serviceName ans → ret < 0) ∧
      ∃ g' sl', MuxRep m' g' svs sl' ctl := by
  have hlive : ∀ s ∈ svs, ∃ sv, m.servMem s = some sv := fun s hs =>
    isSome_iff_exists.1 ((h.services.live s).1 hs)
  have hlen : svs.length < m.servTop + 1 :=
    Nat.lt_succ_of_le (length_le_of_lt h.services.nodup h.services.lt)
  let named := fun s => (m.servMem s).map fun sv => decide (cstr sv.name = cstr serviceName)
  have hdef : ∀ r, walk m.readService .next named (m.servTop + 1) .services = some r →
      qemudMultiplexerConnect m serviceName channel ans = r.elim (some (m, -1)) fun found =>
        (m.servMem found.2).bind fun sv =>
          if 0 < sv.maxClients ∧ sv.maxClients ≤ sv.numClients then some (m, -2)
          else (servConnect m found.2 channel ans).bind fun r => if r.2 then some (r.1, 0) else some (r.1, -1) := by
    intro r hr
    unfold qemudMultiplexerConnect
    simp only [bind_eq_bind]
    rw [hr]
    cases r <;> rfl
  by_cases hex : ∃ s ∈ svs, named s = some true
  · -- the first service of that name
    obtain ⟨l₁, s, l₂, hsplit, hfirst, hname⟩ : ∃ l₁ s l₂, svs = l₁ ++ s :: l₂ ∧
        (∀ t ∈ l₁, named t = some false) ∧ named s = some true := by
      have hfind : (svs.find? fun s => named s == some true).isSome := by
        rw [List.find?_isSome]
        obtain ⟨s, hs, hn⟩ := hex
        exact ⟨s, hs, by rw [hn]; rfl⟩
      obtain ⟨s, hs⟩ := isSome_iff_exists.1 hfind
      obtain ⟨hn, l₁, l₂, hsplit, hbefore⟩ := List.find?_eq_some_iff_append.1 hs
      refine ⟨l₁, s, l₂, hsplit, fun t ht => ?_, by simpa using hn⟩
      obtain ⟨sv, hsv⟩ := hlive t (by rw [hsplit]; exact mem_append_left _ ht)
      have hb := hbefore t ht
      simp only [named, hsv, map_some] at hb ⊢
      simpa using hb
    have hwalk := walk_found (by rw [← hsplit]; exact h.services.linked) (by rw [← hsplit]; exact hlen) hfirst hname
    rw [hdef _ hwalk]
    obtain ⟨sv, hsv⟩ := hlive s (by rw [hsplit]; simp)
    simp only [elim_some, hsv, bind_some]
    have hsame : cstr sv.name = cstr serviceName := by
      simp only [named, hsv, map_some] at hname
      simpa using hname
    split_ifs with hbusy
    · exact ⟨m, -2, rfl, fun _ => rfl, fun _ => by decide, g, sl, h⟩
    · have hmax : 0 < sv.maxClients → sv.numClients < sv.maxClients := by
        intro hpos
        by_contra hle
        exact hbusy ⟨hpos, by omega⟩
      rcases servConnect_ok h hsv hmax hch ans with ⟨rfl, hans⟩ | ⟨m', c, hans, hrep⟩
      · rw [hans]
        exact ⟨m, -1, rfl, fun _ => rfl, fun _ => by decide, g, sl, h⟩
      · rw [hans]
        refine ⟨m', 0, rfl, fun h0 => absurd h0 (by decide), fun hr => ?_, _, _, hrep⟩
        rcases hr with rfl | hr
        · simp [servConnect] at hans
        · exact absurd (hr s sv hsv hsame) hbusy
  · have hwalk : walk m.readService .next named (m.servTop + 1) .services = some none := by
      refine walk_end h.services.linked hlen fun s hs => ?_
      obtain ⟨sv, hsv⟩ := hlive s hs
      have hn : named s ≠ some true := fun hn => hex ⟨s, hs, hn⟩
      simp only [named, hsv, map_some] at hn ⊢
      simpa using hn
    rw [hdef _ hwalk]
    exact ⟨m, -1, rfl, fun _ => rfl, fun _ => by decide, g, sl, h⟩

/-- **`qemud_multiplexer_disconnect`**. -/
theorem disconnect_ok (h : MuxRep m g svs sl ctl) (hch : 0 < channel) :
    ∃ m' g' sl', qemudMultiplexerDisconnect m channel = some m' ∧ MuxRep m' g' svs sl' ctl := by
  rcases clientWalk h channel with ⟨hnone, -⟩ | ⟨k, c, x, hx, hxc, hwalk⟩
  · refine ⟨m, g, sl, ?_, h⟩
    simp only [qemudMultiplexerDisconnect, bind_eq_bind, hnone, bind_some]
  · have hctl : c ≠ ctl := by
      rintro rfl
      obtain ⟨y, hy, hyc, -⟩ := h.control
      obtain rfl := Option.some.inj (hx.symm.trans hy)
      omega
    obtain ⟨s, sv, hs, -, -⟩ := servMem_of_mem h hx hctl
    obtain ⟨m', hd, hrep⟩ := h.disconnect hx hctl hs (-1)
    refine ⟨m', _, _, ?_, hrep⟩
    simp only [qemudMultiplexerDisconnect, bind_eq_bind, hwalk, bind_some, hx]
    exact hd

end Emulator.Qemud
