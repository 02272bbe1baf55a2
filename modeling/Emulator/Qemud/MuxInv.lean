import Emulator.Qemud.Mux

/-!
# The lists of the multiplexer

`Global` is the global list with its back pointers, `Services` the services with
their client lists and counters.

* `clientRemove_ok`, `clientPrepend_ok`: the global list loses or gains a client;
* `serviceAddClient_ok`, `serviceRemoveClient_ok`: so does the list of a service.
-/

namespace Emulator.Qemud

open Function QemudMultiplexer List Option

/-- The back pointer of a client. -/
def prefOf (m : QemudMultiplexer) (c : ClientPtr) : Option ClientLink := (m.mem c).map QemudClient.pref

/-- The global list is `g`. -/
structure Global (m : QemudMultiplexer) (g : List ClientPtr) : Prop where
  linked : Linked m.readLink ClientLink.next .clients g
  back : Back (prefOf m) ClientLink.next .clients g
  nodup : g.Nodup

/-- The service `sv` at `s` has the client list `l`. -/
structure ServiceOk (m : QemudMultiplexer) (s : ServicePtr) (sv : QemudService) (l : List ClientPtr) :
    Prop where
  linked : Linked m.readServ ServLink.nextServ (.clients s) l
  nodup : l.Nodup
  count : sv.numClients = l.length
  max : 0 < sv.maxClients → sv.numClients ≤ sv.maxClients
  owner : ∀ c ∈ l, (m.mem c).map QemudClient.service = some (some s)

/-- The services are `svs`, and `sl s` is the client list of the service `s`. -/
structure Services (m : QemudMultiplexer) (svs : List ServicePtr) (sl : ServicePtr → List ClientPtr) :
    Prop where
  linked : Linked m.readService ServiceLink.next .services svs
  nodup : svs.Nodup
  live : ∀ s, s ∈ svs ↔ (m.servMem s).isSome
  lt : ∀ s ∈ svs, s < m.servTop
  ok : ∀ s sv, m.servMem s = some sv → ServiceOk m s sv (sl s)

/-- What there is in the record of a client beside the fields of the global list. -/
def rest (x : QemudClient) : QemudClient := { x with next := none, pref := .clients }

/-- The fields of a client that its service list is made of. -/
def servFields (x : QemudClient) : Option ServicePtr × Option ClientPtr := (x.service, x.nextServ)

/-- The record of a client without its link in the list of its service. -/
def offServ (x : QemudClient) : QemudClient := { x with nextServ := none }

/-- The fields of a client that the global list is made of. -/
def linkFields (x : QemudClient) : Option ClientPtr × ClientLink := (x.next, x.pref)

/-- `m'` differs from `m` in the links of the global list only. -/
structure SameRest (m m' : QemudMultiplexer) : Prop where
  services : m'.services = m.services
  servMem : m'.servMem = m.servMem
  servTop : m'.servTop = m.servTop
  top : m'.top = m.top
  mem : ∀ a, (m'.mem a).map rest = (m.mem a).map rest

theorem mem_setClient (m : QemudMultiplexer) (c a : ClientPtr) (x : QemudClient) :
    (m.setClient c x).mem a = if a = c then some x else m.mem a := by
  unfold setClient
  simp only [update_apply]

theorem servMem_setService (m : QemudMultiplexer) (s t : ServicePtr) (x : QemudService) :
    (m.setService s x).servMem t = if t = s then some x else m.servMem t := by
  unfold setService
  simp only [update_apply]

theorem readLink_setClient (m : QemudMultiplexer) (c : ClientPtr) (x : QemudClient) (k : ClientLink) :
    (m.setClient c x).readLink k = if k = .next c then some x.next else m.readLink k := by
  cases k with
  | clients => rfl
  | next a =>
    simp only [readLink, mem_setClient, ClientLink.next.injEq]
    split_ifs <;> rfl

theorem prefOf_setClient (m : QemudMultiplexer) (c : ClientPtr) (x : QemudClient) (a : ClientPtr) :
    prefOf (m.setClient c x) a = if a = c then some x.pref else prefOf m a := by
  simp only [prefOf, mem_setClient]
  split_ifs <;> rfl

variable {m : QemudMultiplexer} {c : ClientPtr}

theorem mem_of_readLink {n : Option ClientPtr}
    (h : m.readLink (.next c) = some n) : ∃ x, m.mem c = some x ∧ x.next = n := by
  simp only [readLink, map_eq_some_iff] at h
  exact h

/-- What the new record of a client has in common with the old one is unchanged. -/
theorem map_setClient {β : Type} {f : QemudClient → β} {x y : QemudClient}
    (hx : m.mem c = some x) (hy : f y = f x) (a : ClientPtr) :
    ((m.setClient c y).mem a).map f = (m.mem a).map f := by
  rw [mem_setClient]
  split_ifs with h
  · rw [h, hx]; exact congrArg some hy
  · rfl

variable {o : Option ClientPtr}

/-- The cell `k` holds a pointer of the global list. -/
theorem writeLink_ok {k : ClientLink}
    (hk : m.readLink k = some o) (p : Option ClientPtr) :
    ∃ m', m.writeLink k p = some m' ∧ (∀ j, m'.readLink j = if j = k then some p else m.readLink j) ∧
      (∀ a, prefOf m' a = prefOf m a) ∧ SameRest m m' ∧ (∀ a, k ≠ .next a → m'.mem a = m.mem a) := by
  cases k with
  | clients =>
    refine ⟨_, rfl, fun j => ?_, fun a => rfl, ⟨rfl, rfl, rfl, rfl, fun a => rfl⟩, fun a _ => rfl⟩
    cases j <;> rfl
  | next c =>
    obtain ⟨x, hx, -⟩ := mem_of_readLink hk
    have hw : m.writeLink (.next c) p = some (m.setClient c { x with next := p }) := by
      simp only [writeLink, hx, bind_eq_bind, bind_some]
    refine ⟨_, hw, fun j => readLink_setClient _ _ _ _, map_setClient hx rfl,
      ⟨rfl, rfl, rfl, rfl, map_setClient hx rfl⟩, fun a ha => ?_⟩
    rw [mem_setClient, if_neg fun h => ha (by rw [h])]

theorem SameRest.trans {m₁ m₂ m₃ : QemudMultiplexer} (h : SameRest m₁ m₂) (h' : SameRest m₂ m₃) :
    SameRest m₁ m₃ :=
  ⟨h'.services.trans h.services, h'.servMem.trans h.servMem, h'.servTop.trans h.servTop, h'.top.trans h.top,
    fun a => (h'.mem a).trans (h.mem a)⟩

/-- Writing the links of one client changes nothing else. -/
theorem sameRest_setClient {x y : QemudClient} (hx : m.mem c = some x)
    (hy : rest y = rest x) : SameRest m (m.setClient c y) :=
  ⟨rfl, rfl, rfl, rfl, map_setClient hx hy⟩

/-- `if (n) n->pref = pref;` at a node of the global list. -/
theorem writePref_ok {n : Option ClientPtr} (hn : ∀ d ∈ n, (m.mem d).isSome)
    (pref : ClientLink) :
    ∃ m', writePref m n pref = some m' ∧ (∀ j, m'.readLink j = m.readLink j) ∧
      (∀ a, prefOf m' a = if a ∈ n then some pref else prefOf m a) ∧ SameRest m m' ∧
      (∀ a, a ∉ n → m'.mem a = m.mem a) := by
  cases n with
  | none => exact ⟨m, rfl, fun j => rfl, fun a => by simp, ⟨rfl, rfl, rfl, rfl, fun a => rfl⟩, fun a _ => rfl⟩
  | some d =>
    obtain ⟨y, hy⟩ := isSome_iff_exists.1 (hn d rfl)
    have hw : writePref m (some d) pref = some (m.setClient d { y with pref := pref }) := by
      simp only [writePref, hy, bind_eq_bind, bind_some]
    refine ⟨_, hw, fun j => ?_, fun a => ?_, sameRest_setClient hy rfl, fun a ha => ?_⟩
    · rw [readLink_setClient]
      split_ifs with hj
      · rw [hj]; simp only [readLink, hy, map_some]
      · rfl
    · rw [prefOf_setClient]
      simp only [mem_def, Option.some.injEq, eq_comm]
    · rw [mem_setClient, if_neg]
      rintro rfl
      exact ha rfl

variable {g : List ClientPtr}

/-- The links of the global list are cells of live clients, or the head. -/
theorem Global.read (h : Global m g) (hc : c ∈ g) :
    ∃ x, m.mem c = some x := by
  obtain ⟨n, hn⟩ := h.linked.read_mem hc
  obtain ⟨x, hx, -⟩ := mem_of_readLink hn
  exact ⟨x, hx⟩

/-- The pointer in a cell is the first node of what follows. -/
theorem linked_head {k : ClientLink} {l : List ClientPtr}
    (h : Linked m.readLink ClientLink.next k l) (ho : m.readLink k = some o) : o = l.head? := by
  cases l with
  | nil => exact Option.some.inj (ho.symm.trans h)
  | cons a l => exact Option.some.inj (ho.symm.trans h.1)

/-- **`qemud_client_remove` takes the client out of the global list.** -/
theorem clientRemove_ok {l₁ l₂ : List ClientPtr} (h : Global m (l₁ ++ c :: l₂)) :
    ∃ m', qemudClientRemove m c = some m' ∧ Global m' (l₁ ++ l₂) ∧ SameRest m m' := by
  have hcell := h.linked.drop
  have hn := nodup_cons.1 (nodup_middle.1 h.nodup)
  have hdc : ∀ d ∈ l₂.head?, d ≠ c := by
    rintro d hd rfl
    exact hn.1 (mem_append_right _ (mem_of_mem_head? hd))
  obtain ⟨x, hx⟩ := h.read (show c ∈ l₁ ++ c :: l₂ by simp)
  have hpref : x.pref = endLink ClientLink.next .clients l₁ := by
    have hb := h.back.drop.1
    rw [prefOf, hx] at hb
    exact Option.some.inj hb
  have hnext : m.readLink (.next c) = some x.next := by simp only [readLink, hx, map_some]
  have hhead : x.next = l₂.head? := linked_head hcell.2 hnext
  have hkc : endLink ClientLink.next .clients l₁ ≠ .next c := by
    rcases (endLink_mem _ _ : endLink ClientLink.next .clients l₁ = _ ∨ _) with he | ⟨b, hb, he⟩
    · rw [he]; exact fun h => nomatch h
    · rw [he]
      intro hbc
      obtain rfl := ClientLink.next.inj hbc
      exact hn.1 (mem_append_left _ hb)
  -- the cell before `c`, then the node after it, then `c` itself
  obtain ⟨m₁, hw, hr₁, hp₁, hs₁, hm₁⟩ := writeLink_ok hcell.1 x.next
  have hx₁ : m₁.mem c = some x := by rw [hm₁ c hkc]; exact hx
  have hlive : ∀ d ∈ x.next, (m₁.mem d).isSome := by
    intro d hd
    rw [hhead] at hd
    obtain ⟨y, hy⟩ := h.read (show d ∈ l₁ ++ c :: l₂ by simp [mem_of_mem_head? hd])
    have hmap := hs₁.mem d
    rw [hy] at hmap
    obtain ⟨z, hz, -⟩ := map_eq_some_iff.1 hmap
    rw [hz]; rfl
  obtain ⟨m₂, hw₂, hr₂, hp₂, hs₂, hm₂⟩ := writePref_ok hlive x.pref
  have hx₂ : m₂.mem c = some x := by
    rw [hm₂ c fun hc => hdc c (by rwa [hhead] at hc) rfl]; exact hx₁
  refine ⟨m₂.setClient c { x with next := none, pref := .next c }, ?_, ⟨?_, ?_, hn.2⟩,
    (hs₁.trans hs₂).trans (sameRest_setClient hx₂ rfl)⟩
  · unfold qemudClientRemove
    rw [hx]
    simp only [bind_eq_bind, bind_some]
    rw [hpref, hw, bind_some, hx₁, bind_some, hw₂, bind_some, hx₂]
    rfl
  · refine h.linked.unlink (fun _ _ => ClientLink.next.inj) h.nodup (fun a _ => fun h => nomatch h) ?_ ?_
    · rw [readLink_setClient, if_neg hkc, hr₂, hr₁, if_pos rfl, hnext]
    · intro k hk hkc'
      rw [readLink_setClient, if_neg hkc', hr₂, hr₁, if_neg hk]
  · rw [hhead] at hp₂
    refine h.back.unlink h.nodup ?_ ?_
    · intro d hd
      rw [prefOf_setClient, if_neg (hdc d hd), hp₂, if_pos hd, prefOf, hx]
      rfl
    · intro a ha hac
      rw [prefOf_setClient, if_neg hac, hp₂, if_neg ha, hp₁]

/-- **`qemud_client_prepend` puts a new client at the head of the global list.** -/
theorem clientPrepend_ok {x : QemudClient} (h : Global m g) (hx : m.mem c = some x) (hc : c ∉ g) :
    ∃ m', qemudClientPrepend m c .clients = some m' ∧ Global m' (c :: g) ∧ SameRest m m' := by
  have hhead : m.clients = g.head? := linked_head h.linked rfl
  have hgc : ∀ d ∈ g.head?, d ≠ c := by
    rintro d hd rfl
    exact hc (mem_of_mem_head? hd)
  set m₀ := m.setClient c { x with next := m.clients, pref := .clients } with hm₀
  have hx₀ : m₀.mem c = some { x with next := m.clients, pref := .clients } := by
    rw [hm₀, mem_setClient, if_pos rfl]
  have hs₀ : SameRest m m₀ := sameRest_setClient hx rfl
  obtain ⟨m₁, hw, hr₁, hp₁, hs₁, hm₁⟩ := writeLink_ok (show m₀.readLink .clients = some m₀.clients from rfl) (some c)
  have hx₁ : m₁.mem c = some { x with next := m.clients, pref := .clients } := by
    rw [hm₁ c (fun h => nomatch h)]; exact hx₀
  have hlive : ∀ d ∈ m.clients, (m₁.mem d).isSome := by
    intro d hd
    rw [hhead] at hd
    obtain ⟨y, hy⟩ := h.read (mem_of_mem_head? hd)
    rw [hm₁ d (fun h => nomatch h), hm₀, mem_setClient, if_neg (hgc d hd), hy]
    rfl
  obtain ⟨m₂, hw₂, hr₂, hp₂, hs₂, -⟩ := writePref_ok hlive (.next c)
  -- cells other than the head and the one of `c` are as before
  have hframe : ∀ k, k ≠ .clients → k ≠ .next c → m₂.readLink k = m.readLink k := by
    intro k hk hkc
    rw [hr₂, hr₁, if_neg hk, hm₀, readLink_setClient, if_neg hkc]
  refine ⟨m₂, ?_, ⟨⟨?_, ?_⟩, ⟨?_, ?_⟩, nodup_cons.2 ⟨hc, h.nodup⟩⟩,
    (hs₀.trans hs₁).trans hs₂⟩
  · unfold qemudClientPrepend
    rw [hx]
    simp only [bind_eq_bind, bind_some, readLink]
    rw [← hm₀, hw, bind_some, hx₁, bind_some]
    exact hw₂
  · rw [hr₂, hr₁, if_pos rfl]
  · have hcell : m₂.readLink (.next c) = m.readLink .clients := by
      rw [hr₂, hr₁, if_neg (fun h => nomatch h), hm₀, readLink_setClient, if_pos rfl]
      rfl
    have hg : ∀ a ∈ g, m₂.readLink (.next a) = m.readLink (.next a) := by
      intro a ha
      refine hframe _ (fun h => nomatch h) fun he => ?_
      rw [ClientLink.next.inj he] at ha
      exact hc ha
    have hl := h.linked
    cases g with
    | nil => exact hcell.trans hl
    | cons a g =>
      exact ⟨hcell.trans hl.1, hl.2.congr (hg a mem_cons_self) fun b hb => hg b (mem_cons_of_mem _ hb)⟩
  · rw [hp₂, if_neg fun hd => hgc c (by rwa [hhead] at hd) rfl, hp₁, hm₀, prefOf_setClient, if_pos rfl]
  · have hback := h.back
    rw [hhead] at hp₂
    cases g with
    | nil => trivial
    | cons a g =>
      refine ⟨by rw [hp₂, if_pos (show a ∈ (a :: g).head? from rfl)], hback.2.congr fun b hb => ?_⟩
      have hab : b ≠ a := by
        rintro rfl
        exact (nodup_cons.1 h.nodup).1 hb
      rw [hp₂, if_neg (by simpa using hab.symm), hp₁, hm₀, prefOf_setClient, if_neg]
      rintro rfl
      exact hc (mem_cons_of_mem _ hb)

/-- Records that agree on `f` agree on what is a function of `f`. -/
theorem map_factor {α β γ : Type} {f : α → β} (k : β → γ) {o o' : Option α} (h : o'.map f = o.map f) :
    o'.map (k ∘ f) = o.map (k ∘ f) := by
  rw [← Option.map_map, ← Option.map_map, h]

/-- The global list depends on the links and back pointers of its nodes only. -/
theorem Global.congr {m m' : QemudMultiplexer} (h : Global m g) (hc : m'.clients = m.clients)
    (hm : ∀ a ∈ g, (m'.mem a).map linkFields = (m.mem a).map linkFields) :
    Global m' g := by
  refine ⟨h.linked.congr (congrArg some hc) fun a ha => ?_, h.back.congr fun a ha => ?_, h.nodup⟩
  · exact map_factor Prod.fst (hm a ha)
  · exact map_factor Prod.snd (hm a ha)

variable {sv : QemudService} {s : ServicePtr}

/-- A client list depends on the service fields of its nodes only. -/
theorem ServiceOk.congr {m m' : QemudMultiplexer} {l : List ClientPtr}
    (h : ServiceOk m s sv l) (hs : m'.servMem s = m.servMem s)
    (hm : ∀ a ∈ l, (m'.mem a).map servFields = (m.mem a).map servFields) : ServiceOk m' s sv l := by
  refine ⟨h.linked.congr ?_ fun a ha => ?_, h.nodup, h.count, h.max, fun c hc => ?_⟩
  · simp only [readServ, hs]
  · exact map_factor Prod.snd (hm a ha)
  · exact (map_factor Prod.fst (hm c hc)).trans (h.owner c hc)

variable {sl : ServicePtr → List ClientPtr} {svs : List ServicePtr}

theorem Services.congr {m m' : QemudMultiplexer}
    (h : Services m svs sl) (hs : m'.services = m.services) (hv : m'.servMem = m.servMem)
    (ht : m'.servTop = m.servTop)
    (hm : ∀ s, (m.servMem s).isSome → ∀ a ∈ sl s, (m'.mem a).map servFields = (m.mem a).map servFields) :
    Services m' svs sl := by
  refine ⟨h.linked.congr (congrArg some hs) fun a _ => ?_, h.nodup, fun s => ?_, fun s hs' => ?_, fun s sv hsv => ?_⟩
  · simp only [readService, hv]
  · rw [hv]; exact h.live s
  · rw [ht]; exact h.lt s hs'
  · rw [hv] at hsv
    exact (h.ok s sv hsv).congr (by rw [hv]) (hm s (by rw [hsv]; rfl))

theorem SameRest.services_ok {m m' : QemudMultiplexer} (hr : SameRest m m')
    (h : Services m svs sl) : Services m' svs sl := by
  exact h.congr hr.services hr.servMem hr.servTop fun s _ a _ => map_factor (f := rest) servFields (hr.mem a)

theorem readServ_setClient (m : QemudMultiplexer) (c : ClientPtr) (x : QemudClient) (k : ServLink) :
    (m.setClient c x).readServ k = if k = .nextServ c then some x.nextServ else m.readServ k := by
  cases k with
  | clients s => rfl
  | nextServ a =>
    simp only [readServ, mem_setClient, ServLink.nextServ.injEq]
    split_ifs <;> rfl

theorem readServ_setService (m : QemudMultiplexer) (s : ServicePtr) (x : QemudService) (k : ServLink) :
    (m.setService s x).readServ k = if k = .clients s then some x.clients else m.readServ k := by
  cases k with
  | nextServ a => rfl
  | clients t =>
    simp only [readServ, servMem_setService, ServLink.clients.injEq]
    split_ifs <;> rfl

/-- The cell `k` is one of the list of the service `s`: the head of the list, or a
cell of a client. -/
theorem writeServ_ok {k : ServLink}
    (hk : m.readServ k = some o) (hks : ∀ t, k = .clients t → t = s)
    (hsv : m.servMem s = some sv) (p : Option ClientPtr) :
    ∃ m' sv', m.writeServ k p = some m' ∧ (∀ j, m'.readServ j = if j = k then some p else m.readServ j) ∧
      (∀ t, m'.servMem t = if t = s then some sv' else m.servMem t) ∧
      { sv' with clients := none } = { sv with clients := none } ∧
      (∀ a, (m'.mem a).map offServ = (m.mem a).map offServ) ∧
      m'.clients = m.clients ∧ m'.top = m.top ∧ m'.services = m.services ∧ m'.servTop = m.servTop := by
  cases k with
  | clients t =>
    obtain rfl := hks t rfl
    refine ⟨m.setService t { sv with clients := p }, { sv with clients := p }, ?_,
      fun j => readServ_setService _ _ _ _, fun u => servMem_setService _ _ _ _, rfl, fun a => rfl, rfl, rfl, rfl, rfl⟩
    simp only [writeServ, hsv, bind_eq_bind, bind_some]
  | nextServ c =>
    obtain ⟨x, hx, -⟩ : ∃ x, m.mem c = some x ∧ x.nextServ = o := by
      simpa only [readServ, map_eq_some_iff] using hk
    refine ⟨m.setClient c { x with nextServ := p }, sv, ?_, fun j => readServ_setClient _ _ _ _, fun u => ?_, rfl,
      map_setClient hx rfl, rfl, rfl, rfl, rfl⟩
    · simp only [writeServ, hx, bind_eq_bind, bind_some]
    · split_ifs with h
      · rw [h]; exact hsv
      · rfl

/-- A list without repetitions of addresses below `n` has at most `n` of them. -/
theorem length_le_of_lt {l : List ℕ} {n : ℕ} (hl : l.Nodup) (h : ∀ a ∈ l, a < n) : l.length ≤ n := by
  have := (hl.subperm fun a ha => mem_range.2 (h a ha) : l.Subperm (List.range n)).length_le
  rwa [length_range] at this

/-- What the services part says when only the service `s` and the clients of its old
and new list change. -/
theorem Services.update {m m' : QemudMultiplexer} {svs : List ServicePtr} {sl : ServicePtr → List ClientPtr}
    (h : Services m svs sl) {s : ServicePtr} {sv sv' : QemudService} {l : List ClientPtr}
    (hsv : m.servMem s = some sv) (hnext : sv'.next = sv.next) (hs : m'.services = m.services)
    (ht : m'.servTop = m.servTop) (hv : ∀ t, m'.servMem t = if t = s then some sv' else m.servMem t)
    (hm : ∀ t, t ≠ s → ∀ a ∈ sl t, (m.servMem t).isSome → (m'.mem a).map servFields = (m.mem a).map servFields)
    (hok : ServiceOk m' s sv' l) : Services m' svs (update sl s l) := by
  refine ⟨h.linked.congr (congrArg some hs) fun a _ => ?_, h.nodup, fun t => ?_, fun t ht' => ?_, fun t tv htv => ?_⟩
  · simp only [readService, hv]
    split_ifs with ha
    · rw [ha, hsv]; exact congrArg some hnext
    · rfl
  · rw [hv, h.live]
    split_ifs with ha
    · simp [ha, hsv]
    · rfl
  · rw [ht]; exact h.lt t ht'
  · rw [hv] at htv
    split_ifs at htv with ha
    · subst ha
      rw [update_self, ← Option.some.inj htv]
      exact hok
    · rw [update_of_ne ha]
      exact (h.ok t tv htv).congr (by rw [hv, if_neg ha]) fun a hat => hm t ha a hat (by rw [htv]; rfl)

theorem mem_eq_of_offServ {o o' : Option QemudClient} (h : o'.map offServ = o.map offServ)
    (hn : o'.map QemudClient.nextServ = o.map QemudClient.nextServ) : o' = o := by
  cases o with
  | none => simpa using h
  | some x =>
    obtain ⟨y, rfl, hy⟩ := map_eq_some_iff.1 h
    have hny : y.nextServ = x.nextServ := by simpa using hn
    cases x
    cases y
    simp only [offServ, QemudClient.mk.injEq] at hy hny ⊢
    simp [hy, hny]

/-- **`qemud_service_add_client`** puts the client at the head of the list. -/
theorem serviceAddClient_ok
    (h : Services m svs sl) {x : QemudClient}
    (hsv : m.servMem s = some sv) (hx : m.mem c = some x)
    (hfresh : ∀ t, (m.servMem t).isSome → c ∉ sl t)
    (hmax : 0 < sv.maxClients → sv.numClients < sv.maxClients) :
    ∃ m', qemudServiceAddClient m s c = some m' ∧ Services m' svs (update sl s (c :: sl s)) ∧
      m'.clients = m.clients ∧ m'.top = m.top ∧
      (∀ a, m'.mem a = if a = c then some { x with service := some s, nextServ := sv.clients } else m.mem a) := by
  have hok := h.ok s sv hsv
  have hcs : c ∉ sl s := hfresh s (by rw [hsv]; rfl)
  refine ⟨(m.setClient c { x with service := some s, nextServ := sv.clients }).setService s
    { sv with clients := some c, numClients := sv.numClients + 1 }, ?_, ?_, rfl, rfl, fun a => mem_setClient _ _ _ _⟩
  · simp only [qemudServiceAddClient, hx, hsv, bind_eq_bind, bind_some]
  refine h.update hsv ?_ rfl rfl (fun t => servMem_setService _ _ _ _) ?_ ⟨⟨?_, ?_⟩, ?_, ?_, ?_, ?_⟩
  · rfl
  · intro t _ a ha ht
    have hac : a ≠ c := by
      rintro rfl
      exact hfresh t ht ha
    simp only [setService, mem_setClient, if_neg hac]
  · rw [readServ_setService, if_pos rfl]
  · have hcell : ((m.setClient c { x with service := some s, nextServ := sv.clients }).setService s
        { sv with clients := some c, numClients := sv.numClients + 1 }).readServ (.nextServ c) =
        m.readServ (.clients s) := by
      rw [readServ_setService, if_neg (fun h => nomatch h), readServ_setClient, if_pos rfl]
      simp only [readServ, hsv, map_some]
    have hg : ∀ a ∈ sl s, ((m.setClient c { x with service := some s, nextServ := sv.clients }).setService s
        { sv with clients := some c, numClients := sv.numClients + 1 }).readServ (.nextServ a) =
        m.readServ (.nextServ a) := by
      intro a ha
      rw [readServ_setService, if_neg (fun h => nomatch h), readServ_setClient, if_neg]
      rintro he
      rw [ServLink.nextServ.inj he] at ha
      exact hcs ha
    have hl := hok.linked
    cases hsl : sl s with
    | nil => rw [hsl] at hl; exact hcell.trans hl
    | cons a g =>
      rw [hsl] at hl hg
      exact ⟨hcell.trans hl.1, hl.2.congr (hg a mem_cons_self) fun b hb => hg b (mem_cons_of_mem _ hb)⟩
  · exact nodup_cons.2 ⟨hcs, hok.nodup⟩
  · simp only [hok.count, length_cons, Nat.cast_add, Nat.cast_one]
  · intro hpos
    have := hmax hpos
    simp only
    omega
  · intro a ha
    simp only [setService, mem_setClient]
    split_ifs with hac
    · rfl
    · exact hok.owner a ((mem_cons.1 ha).resolve_left hac)

/-- **`qemud_service_remove_client`** takes the client out of the list. -/
theorem serviceRemoveClient_ok
    (h : Services m svs sl)
    (hsv : m.servMem s = some sv) (hlt : ∀ a, (m.mem a).isSome → a < m.top) (hc : c ∈ sl s) :
    ∃ m', qemudServiceRemoveClient m s c = some m' ∧ Services m' svs (update sl s ((sl s).erase c)) ∧
      m'.clients = m.clients ∧ m'.top = m.top ∧
      (∀ a, (m'.mem a).map offServ = (m.mem a).map offServ) := by
  have hok := h.ok s sv hsv
  have hlive : ∀ a ∈ sl s, ∃ x, m.mem a = some x := by
    intro a ha
    obtain ⟨x, hx, -⟩ := map_eq_some_iff.1 (hok.owner a ha)
    exact ⟨x, hx⟩
  have hlen : (sl s).length ≤ m.top :=
    length_le_of_lt hok.nodup fun a ha => hlt a (by obtain ⟨x, hx⟩ := hlive a ha; rw [hx]; rfl)
  obtain ⟨l₁, l₂, hl⟩ := append_of_mem hc
  have hlink := hok.linked
  have hnd := hok.nodup
  rw [hl] at hlink hnd hlen
  have hn := nodup_cons.1 (nodup_middle.1 hnd)
  have herase : (sl s).erase c = l₁ ++ l₂ := by
    rw [hl, erase_append_right _ fun hc => hn.1 (mem_append_left _ hc), erase_cons_head]
  have hwalk : walk m.readServ .nextServ (fun node => some (node == c)) (m.top + 1) (.clients s) =
      some (some (endLink ServLink.nextServ (.clients s) l₁, c)) := by
    refine walk_found hlink (Nat.lt_succ_of_le hlen) ?_ (by simp)
    intro a ha
    have hac : a ≠ c := by
      rintro rfl
      exact hn.1 (mem_append_left _ ha)
    simp [hac]
  obtain ⟨x, hx⟩ := hlive c hc
  set k := endLink ServLink.nextServ (.clients s) l₁ with hk
  have hks : ∀ t, k = .clients t → t = s := by
    intro t ht
    rcases (endLink_mem _ _ : endLink ServLink.nextServ (.clients s) l₁ = _ ∨ _) with he | ⟨b, hb, he⟩
    · rw [hk, he] at ht; exact (ServLink.clients.inj ht).symm
    · rw [hk, he] at ht; exact nomatch ht
  obtain ⟨m₁, sv₁, hw, hr₁, hv₁, hsv₁, hm₁, hc₁, ht₁, hss₁, hst₁⟩ := writeServ_ok hlink.drop.1 hks hsv x.nextServ
  simp only [QemudService.mk.injEq, true_and] at hsv₁
  obtain ⟨-, hmax₁, hnum₁, hnext₁⟩ := hsv₁
  have hs₁ : m₁.servMem s = some sv₁ := by rw [hv₁, if_pos rfl]
  set sv₂ : QemudService := { sv₁ with numClients := sv₁.numClients - 1 } with hsv₂
  refine ⟨m₁.setService s sv₂, ?_, ?_, hc₁, ht₁, fun a => hm₁ a⟩
  · unfold qemudServiceRemoveClient
    rw [hwalk]
    simp only [bind_eq_bind, bind_some, hx]
    rw [hw, bind_some, hs₁]
    rfl
  rw [herase]
  have hr₂ : ∀ j, (m₁.setService s sv₂).readServ j = m₁.readServ j := by
    intro j
    rw [readServ_setService]
    split_ifs with hj
    · rw [hj]; simp only [readServ, hs₁, map_some, hsv₂]
    · rfl
  refine h.update hsv (show sv₂.next = sv.next from hnext₁) hss₁ hst₁ (fun t => ?_) ?_ ⟨?_, ?_, ?_, ?_, ?_⟩
  · rw [servMem_setService, hv₁]
    split_ifs <;> rfl
  · -- the cell that was written belongs to a client of `s`, or is the head of its list
    intro t hts a hat htv
    obtain ⟨tv, htv⟩ := isSome_iff_exists.1 htv
    have hak : ServLink.nextServ a ≠ k := by
      intro hak
      rcases (endLink_mem _ _ : endLink ServLink.nextServ (.clients s) l₁ = _ ∨ _) with he | ⟨b, hb, he⟩
      · rw [hk, he] at hak; exact nomatch hak
      · rw [hk, he] at hak
        obtain rfl := ServLink.nextServ.inj hak
        have h1 := (h.ok t tv htv).owner a hat
        rw [hok.owner a (by rw [hl]; exact mem_append_left _ hb)] at h1
        exact hts (Option.some.inj (Option.some.inj h1)).symm
    have hmem : m₁.mem a = m.mem a := by
      refine mem_eq_of_offServ (hm₁ a) ?_
      have := hr₁ (.nextServ a)
      rwa [if_neg hak] at this
    exact congrArg (Option.map servFields) hmem
  · refine hlink.unlink (fun _ _ => ServLink.nextServ.inj) hnd (fun a _ => fun h => nomatch h) ?_ ?_
    · rw [hr₂, hr₁, if_pos hk.symm]
      simp only [readServ, hx, map_some]
    · intro j hj _
      rw [hr₂, hr₁, if_neg hj]
  · exact hn.2
  · simp only [hsv₂, hnum₁, hok.count, hl, length_append, length_cons]
    push_cast
    ring
  · intro hpos
    have := hok.max (by simpa only [hsv₂, hmax₁] using hpos)
    simp only [hsv₂, hnum₁, hmax₁]
    omega
  · intro a ha
    have ha' : a ∈ sl s := by
      rw [hl]
      rcases mem_append.1 ha with ha | ha
      · exact mem_append_left _ ha
      · exact mem_append_right _ (mem_cons_of_mem _ ha)
    exact (map_factor QemudClient.service (hm₁ a)).trans (hok.owner a ha')

end Emulator.Qemud
