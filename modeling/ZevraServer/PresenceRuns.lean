import ZevraServer.Presence

/-!
# When presence agrees with the registry

The four Redis steps of a connection and of a disconnect belong to handlers that know
nothing of each other, so a write of the presence key may be late: it then tells of a
socket that has gone, or hides one that has come. If every such write runs while the
registry bears it out, or while a handler in progress is about to correct it, the key
and the registry agree with the connected sockets whenever all is quiet.
-/

namespace ZevraServer.Presence

open Interleaving

variable {w w' : World} {pool : List Call} {p s t : ℕ} {u v : Uuid} {q q' : Call} {ch : Choice}
  {c : Config World Call}

/-! ### Sockets -/

theorem World.getElem?_onClient (w : World) (s t : ℕ) (f : Client → Client) :
    (w.onClient s f).clients[t]? = (w.clients[t]?).map fun k => if s = t then f k else k := by
  rw [onClient,List.getElem?_modify]
  cases w.clients[t]? <;> simp

theorem World.getElem?_disconnect (w : World) (s t : ℕ) :
    (w.disconnect s).clients[t]? = (w.clients[t]?).map fun k =>
      if s = t ∧ k.status = .connected then { k with status := .leaving } else k := by
  rw [disconnect,getElem?_onClient]
  congr 1
  funext k
  split <;> simp_all

@[simp] theorem World.disconnect_registry (w : World) (s : ℕ) : (w.disconnect s).registry = w.registry := rfl
@[simp] theorem World.disconnect_online (w : World) (s : ℕ) : (w.disconnect s).online = w.online := rfl
@[simp] theorem World.onClient_registry (w : World) (s : ℕ) (f : Client → Client) :
    (w.onClient s f).registry = w.registry := rfl
@[simp] theorem World.onClient_online (w : World) (s : ℕ) (f : Client → Client) :
    (w.onClient s f).online = w.online := rfl
@[simp] theorem World.addSocket_clients (w : World) (u : Uuid) (s : ℕ) : (w.addSocket u s).clients = w.clients := rfl
@[simp] theorem World.addSocket_online (w : World) (u : Uuid) (s : ℕ) : (w.addSocket u s).online = w.online := rfl
@[simp] theorem World.removeSocket_clients (w : World) (u : Uuid) (s : ℕ) :
    (w.removeSocket u s).clients = w.clients := rfl
@[simp] theorem World.removeSocket_online (w : World) (u : Uuid) (s : ℕ) :
    (w.removeSocket u s).online = w.online := rfl

theorem World.mem_addSocket {x : ℕ} : x ∈ (w.addSocket u s).registry v ↔ x ∈ w.registry v ∨ v = u ∧ x = s := by
  by_cases hv : v = u
  · subst hv
    by_cases hs : s ∈ w.registry v
    · simp only [addSocket,Function.update_self,if_pos hs,true_and]
      exact ⟨.inl,fun h => h.elim id fun h => h ▸ hs⟩
    · simp [addSocket,hs]
  · simp [addSocket,hv]

theorem World.mem_removeSocket {x : ℕ} :
    x ∈ (w.removeSocket u s).registry v ↔ x ∈ w.registry v ∧ ¬(v = u ∧ x = s) := by
  by_cases hv : v = u
  · subst hv
    simp [removeSocket]
  · simp [removeSocket,hv]

/-- The users of the sockets. -/
def World.users (w : World) : List (Option Uuid) := w.clients.map (·.user)

theorem World.getElem?_users (w : World) (s : ℕ) : w.users[s]? = (w.clients[s]?).map (·.user) := by
  simp [users]

theorem World.users_disconnect (w : World) (s : ℕ) : (w.disconnect s).users = w.users := by
  refine List.ext_getElem? fun t => ?_
  rw [getElem?_users,getElem?_users,getElem?_disconnect,Option.map_map]
  congr 1
  funext k
  simp only [Function.comp_def]
  split <;> rfl

/-! ### Who attends to a socket -/

/-- The handler of the socket's connection, with its user. -/
def Call.attends (s : ℕ) (u : Uuid) : Call → Bool
  | .connection (.join t v) => t = s && v = u
  | .connection (.online t v) => t = s && v = u
  | .connection (.check t v) => t = s && v = u
  | _ => false

/-- A connection that is not verified has no user, one that is has the user it attends to. -/
structure Roles (users : List (Option Uuid)) (pool : List Call) : Prop where
  unnamed : ∀ (p s : ℕ), pool[p]? = some (.connection (.verify s)) → users[s]? = some none
  unique : ∀ p r s : ℕ, pool[p]? = some (.connection (.verify s)) → pool[r]? = some (.connection (.verify s)) →
    p = r
  named : ∀ q ∈ pool, ∀ s u, q.attends s u = true → users[s]? = some (some u)

theorem Roles.spawn {users : List (Option Uuid)} (h : Roles users pool) (hq : q.Starts) :
    Roles users (pool++[q]) := by
  have hno : ∀ s, q ≠ .connection (.verify s) := by rintro s rfl; cases hq
  have hnot : ∀ s u, q.attends s u = false := by intro s u; cases hq <;> rfl
  refine ⟨fun p s hp => ?_,fun p r s hp hr => ?_,fun r hr s u ha => ?_⟩
  · rcases pool_append hp with ⟨_,hp⟩ | ⟨_,hp⟩
    · exact h.unnamed p s hp
    · exact absurd hp.symm (hno s)
  · rcases pool_append hp with ⟨_,hp⟩ | ⟨_,hp⟩
    · rcases pool_append hr with ⟨_,hr⟩ | ⟨_,hr⟩
      · exact h.unique p r s hp hr
      · exact absurd hr.symm (hno s)
    · exact absurd hp.symm (hno s)
  · rcases List.mem_append.mp hr with hr | hr
    · exact h.named r hr s u ha
    · obtain rfl := List.mem_singleton.mp hr
      rw [hnot] at ha
      simp at ha

/-- A step that leaves the users as they are. -/
theorem Roles.step {users : List (Option Uuid)} (h : Roles users pool) (hno : ∀ s, q' ≠ .connection (.verify s))
    (ha : ∀ s u, q'.attends s u = true → users[s]? = some (some u)) : Roles users (pool.set p q') := by
  refine ⟨fun r s hr => ?_,fun r t s hr ht => ?_,fun r hr s u hru => ?_⟩
  · rcases pool_set hr with ⟨_,hr⟩ | ⟨_,hr⟩
    · exact absurd hr.symm (hno s)
    · exact h.unnamed r s hr
  · rcases pool_set hr with ⟨_,hr⟩ | ⟨_,hr⟩
    · exact absurd hr.symm (hno s)
    · rcases pool_set ht with ⟨_,ht⟩ | ⟨_,ht⟩
      · exact absurd ht.symm (hno s)
      · exact h.unique r t s hr ht
  · rcases List.mem_or_eq_of_mem_set hr with hr | rfl
    · exact h.named r hr s u hru
    · exact ha s u hru

/-- A new socket. -/
theorem Roles.accept {users : List (Option Uuid)} (h : Roles users pool) :
    Roles (users++[none]) (pool.set p (.connection (.verify users.length))) := by
  have hkeep : ∀ {s : ℕ} {o : Option Uuid}, users[s]? = some o → (users++[none])[s]? = some o := by
    intro s o hs
    rwa [List.getElem?_append_left (List.getElem?_eq_some_iff.mp hs).1]
  have hlt : ∀ {r s : ℕ}, pool[r]? = some (.connection (.verify s)) → s < users.length := fun hr =>
    (List.getElem?_eq_some_iff.mp (h.unnamed _ _ hr)).1
  refine ⟨fun r s hr => ?_,fun r t s hr ht => ?_,fun r hr s u hru => ?_⟩
  · rcases pool_set hr with ⟨_,hr⟩ | ⟨_,hr⟩
    · obtain rfl : s = users.length := by simpa using hr
      simp
    · exact hkeep (h.unnamed r s hr)
  · rcases pool_set hr with ⟨hrp,hr⟩ | ⟨_,hr⟩
    · obtain rfl : s = users.length := by simpa using hr
      rcases pool_set ht with ⟨htp,_⟩ | ⟨_,ht⟩
      · exact hrp.trans htp.symm
      · exact absurd (hlt ht) (Nat.lt_irrefl _)
    · rcases pool_set ht with ⟨_,ht⟩ | ⟨_,ht⟩
      · obtain rfl : s = users.length := by simpa using ht
        exact absurd (hlt hr) (Nat.lt_irrefl _)
      · exact h.unique r t s hr ht
  · rcases List.mem_or_eq_of_mem_set hr with hr | rfl
    · exact hkeep (h.named r hr s u hru)
    · simp [Call.attends] at hru

/-- A socket gets its user. -/
theorem Roles.verify {users : List (Option Uuid)} (h : Roles users pool)
    (hq : pool[p]? = some (.connection (.verify s))) :
    Roles (users.set s (some u)) (pool.set p (.connection (.join s u))) := by
  have hs : s < users.length := (List.getElem?_eq_some_iff.mp (h.unnamed p s hq)).1
  have hne : ∀ {r t : ℕ}, r ≠ p → pool[r]? = some (.connection (.verify t)) → t ≠ s := by
    rintro r t hr ht rfl
    exact hr (h.unique r p t ht hq)
  refine ⟨fun r t hr => ?_,fun r t x hr ht => ?_,fun r hr t v hrv => ?_⟩
  · rcases pool_set hr with ⟨_,hr⟩ | ⟨hrp,hr⟩
    · simp at hr
    · rw [List.getElem?_set_ne (Ne.symm (hne hrp hr))]
      exact h.unnamed r t hr
  · rcases pool_set hr with ⟨_,hr⟩ | ⟨_,hr⟩
    · simp at hr
    · rcases pool_set ht with ⟨_,ht⟩ | ⟨_,ht⟩
      · simp at ht
      · exact h.unique r t x hr ht
  · rcases List.mem_or_eq_of_mem_set hr with hin | rfl
    · have hts : t ≠ s := by
        rintro rfl
        have := (h.unnamed p t hq).symm.trans (h.named r hin t v hrv)
        simp at this
      rw [List.getElem?_set_ne (Ne.symm hts)]
      exact h.named r hin t v hrv
    · obtain ⟨rfl,rfl⟩ : s = t ∧ u = v := by simpa [Call.attends] using hrv
      exact List.getElem?_set_self hs

/-! ### The registry and the presence key -/

/-- What holds in every configuration of a run whose presence writes are in turn. -/
structure Steady (w : World) (pool : List Call) : Prop where
  roles : Roles w.users pool
  joined : ∀ s u, w.Connected s u → s ∈ w.registry u ∨ .connection (.join s u) ∈ pool
  live : ∀ s u, s ∈ w.registry u → ∃ k, w.clients[s]? = some k ∧ k.user = some u ∧ k.status ≠ .left
  present : ∀ u, w.registry u ≠ [] → w.online u = true ∨ ∃ q ∈ pool, q.setsOnline u = true
  absent : ∀ u, w.registry u = [] → w.online u = false ∨ w.Leaving u ∨ ∃ q ∈ pool, q.setsOffline u = true

/-- What another call is about to do, it is still about to do. -/
theorem exists_set {P : Call → Prop} (q' : Call) (hq : pool[p]? = some q) (h : ∃ r ∈ pool, P r) :
    P q ∨ ∃ r ∈ pool.set p q', P r := by
  obtain ⟨r,hr,hPr⟩ := h
  obtain ⟨i,hi⟩ := List.mem_iff_getElem?.mp hr
  by_cases hip : i = p
  · subst hip
    obtain rfl := Option.some.inj (hi.symm.trans hq)
    exact .inl hPr
  · exact .inr ⟨r,List.mem_of_getElem? ((List.getElem?_set_ne (Ne.symm hip)).trans hi),hPr⟩

theorem exists_append {P : Call → Prop} (q : Call) (h : ∃ r ∈ pool, P r) : ∃ r ∈ pool++[q], P r := by
  obtain ⟨r,hr,hP⟩ := h
  exact ⟨r,List.mem_append_left _ hr,hP⟩

theorem mem_set_or (q' : Call) (hq : pool[p]? = some q) {r : Call} (hr : r ∈ pool) : q = r ∨ r ∈ pool.set p q' := by
  rcases exists_set q' hq ⟨r,hr,rfl⟩ with rfl | ⟨_,hr,rfl⟩
  · exact .inl rfl
  · exact .inr hr

theorem mem_set_self (hq : pool[p]? = some q) : q' ∈ pool.set p q' :=
  List.mem_set (List.getElem?_eq_some_iff.mp hq).1 q'

theorem World.leaving_iff : w.Leaving u ↔ ∃ s : ℕ, w.clients[s]? = some ⟨.leaving,some u⟩ := by
  constructor
  · rintro ⟨k,hk,rfl⟩
    exact List.mem_iff_getElem?.mp hk
  · rintro ⟨s,hs⟩
    exact ⟨_,List.mem_of_getElem? hs,rfl⟩

theorem World.Leaving.disconnect (h : w.Leaving u) : (w.disconnect s).Leaving u := by
  obtain ⟨t,ht⟩ := leaving_iff.mp h
  refine leaving_iff.mpr ⟨t,?_⟩
  rw [getElem?_disconnect,ht]
  simp

theorem Steady.spawn (h : Steady w pool) (hq : q.Starts) : Steady w (pool++[q]) where
  roles := h.roles.spawn hq
  joined s u hc := (h.joined s u hc).imp_right (List.mem_append_left _)
  live := h.live
  present u hu := (h.present u hu).imp_right (exists_append q)
  absent u hu := (h.absent u hu).imp_right (.imp_right (exists_append q))

/-- The connection of a socket is lost. -/
theorem Steady.lost (h : Steady w pool) : Steady (w.disconnect s) pool where
  roles := by rw [w.users_disconnect]; exact h.roles
  joined t u hc := by
    refine h.joined t u ?_
    rw [World.Connected,World.getElem?_disconnect] at hc
    obtain ⟨k,hk,he⟩ := Option.map_eq_some_iff.mp hc
    split at he
    · cases he
    · rw [World.Connected,hk,he]
  live t u ht := by
    obtain ⟨k,hk,hu,hl⟩ := h.live t u ht
    rw [World.getElem?_disconnect,hk]
    by_cases hs : s = t ∧ k.status = .connected
    · exact ⟨{ k with status := .leaving },by simp [hs],hu,by simp⟩
    · exact ⟨k,by simp [hs],hu,hl⟩
  present := h.present
  absent u hu := (h.absent u hu).imp_right (.imp_left fun hl => hl.disconnect)

/-- A handler goes on without touching the registry or the presence key. -/
theorem Steady.goes (h : Steady w pool) (hq : pool[p]? = some q) (hroles : Roles w.users (pool.set p q'))
    (hjoin : ∀ s u, q = .connection (.join s u) → w.Connected s u → s ∈ w.registry u)
    (hon : ∀ u, q.setsOnline u = false) (hoff : ∀ u, q.setsOffline u = false) :
    Steady w (pool.set p q') where
  roles := hroles
  joined s u hc := by
    rcases h.joined s u hc with hr | hr
    · exact .inl hr
    · rcases mem_set_or q' hq hr with rfl | hr
      · exact .inl (hjoin s u rfl hc)
      · exact .inr hr
  live := h.live
  present u hu := by
    rcases h.present u hu with ho | hs
    · exact .inl ho
    · rcases exists_set q' hq hs with hs | hs
      · simp [hon] at hs
      · exact .inr hs
  absent u hu := by
    rcases h.absent u hu with ho | hl | hs
    · exact .inl ho
    · exact .inr (.inl hl)
    · rcases exists_set q' hq hs with hs | hs
      · simp [hoff] at hs
      · exact .inr (.inr hs)

/-- `acceptConnection`: a socket without user. -/
theorem Steady.accept (h : Steady w pool) (hq : pool[p]? = some (.connection .accept)) :
    Steady { w with clients := w.clients++[⟨.connected,none⟩] }
      (pool.set p (.connection (.verify w.clients.length))) where
  roles := by
    have := h.roles.accept (p := p)
    simpa [World.users] using this
  joined s u hc := by
    have hold : w.Connected s u := by
      rw [World.Connected] at hc ⊢
      grind
    rcases h.joined s u hold with hr | hr
    · exact .inl hr
    · exact .inr ((mem_set_or _ hq hr).resolve_left (by simp))
  live s u hs := by
    obtain ⟨k,hk,hu,hl⟩ := h.live s u hs
    exact ⟨k,by rw [List.getElem?_append_left (List.getElem?_eq_some_iff.mp hk).1]; exact hk,hu,hl⟩
  present u hu := (h.present u hu).imp_right fun hs => (exists_set _ hq hs).resolve_left (by simp [Call.setsOnline])
  absent u hu := by
    refine (h.absent u hu).imp_right (.imp (fun hl => ?_) fun hs =>
      (exists_set _ hq hs).resolve_left (by simp [Call.setsOffline]))
    obtain ⟨k,hk,he⟩ := hl
    exact ⟨k,List.mem_append_left _ hk,he⟩

/-- The socket gets its user. -/
theorem Steady.verify (h : Steady w pool) (hq : pool[p]? = some (.connection (.verify s))) :
    Steady (w.onClient s fun k => { k with user := some u }) (pool.set p (.connection (.join s u))) := by
  obtain ⟨k,hk,hnone⟩ : ∃ k, w.clients[s]? = some k ∧ k.user = none := by
    have := h.roles.unnamed p s hq
    rwa [World.getElem?_users,Option.map_eq_some_iff] at this
  have hother : ∀ t : ℕ, s ≠ t → (w.onClient s fun k => { k with user := some u }).clients[t]? = w.clients[t]? := by
    intro t ht
    rw [World.getElem?_onClient]
    simp [ht]
  have hself : (w.onClient s fun k => { k with user := some u }).clients[s]? = some { k with user := some u } := by
    rw [World.getElem?_onClient,hk]
    simp
  refine ⟨?_,fun t v hc => ?_,fun t v ht => ?_,fun v hv => ?_,fun v hv => ?_⟩
  · have := h.roles.verify (u := u) hq
    convert this using 1
    refine List.ext_getElem? fun t => ?_
    rw [World.getElem?_users,World.getElem?_onClient,List.getElem?_set,World.getElem?_users]
    by_cases hst : s = t
    · subst hst
      have hs := (List.getElem?_eq_some_iff.mp hk).1
      simp [World.users,hs]
    · simp [hst]
  · by_cases hst : s = t
    · subst hst
      rw [World.Connected,hself] at hc
      obtain rfl : u = v := by simpa using (congrArg Client.user (Option.some.inj hc))
      exact .inr (mem_set_self hq)
    · rw [World.Connected,hother t hst] at hc
      rcases h.joined t v hc with hr | hr
      · exact .inl hr
      · exact .inr ((mem_set_or _ hq hr).resolve_left (by simp))
  · obtain ⟨k',hk',hu,hl⟩ := h.live t v ht
    by_cases hst : s = t
    · subst hst
      obtain rfl := Option.some.inj (hk.symm.trans hk')
      rw [hnone] at hu
      simp at hu
    · exact ⟨k',(hother t hst).trans hk',hu,hl⟩
  · exact (h.present v hv).imp_right fun hs => (exists_set _ hq hs).resolve_left (by simp [Call.setsOnline])
  · refine (h.absent v hv).imp_right (.imp (fun hl => ?_) fun hs =>
      (exists_set _ hq hs).resolve_left (by simp [Call.setsOffline]))
    obtain ⟨t,ht⟩ := World.leaving_iff.mp hl
    have hst : s ≠ t := by
      rintro rfl
      obtain rfl := Option.some.inj (hk.symm.trans ht)
      simp at hnone
    exact World.leaving_iff.mpr ⟨t,(hother t hst).trans ht⟩

/-- A connected socket is registered by a handler that goes on to set its user online. -/
theorem Steady.add (h : Steady w pool) (hq : pool[p]? = some q) (hc : w.Connected s u)
    (hroles : Roles w.users (pool.set p q')) (hjoin : ∀ t v, q = .connection (.join t v) → t = s ∧ v = u)
    (hon : ∀ v, q.setsOnline v = false) (hoff : ∀ v, q.setsOffline v = false) (hset : q'.setsOnline u = true) :
    Steady (w.addSocket u s) (pool.set p q') where
  roles := hroles
  joined t v ht := by
    rcases h.joined t v ht with hr | hr
    · exact .inl (World.mem_addSocket.mpr (.inl hr))
    · rcases mem_set_or q' hq hr with rfl | hr
      · obtain ⟨rfl,rfl⟩ := hjoin t v rfl
        exact .inl (World.mem_addSocket.mpr (.inr ⟨rfl,rfl⟩))
      · exact .inr hr
  live t v ht := by
    rcases World.mem_addSocket.mp ht with ht | ⟨rfl,rfl⟩
    · exact h.live t v ht
    · exact ⟨_,hc,rfl,by simp⟩
  present v hv := by
    by_cases hvu : v = u
    · subst hvu
      exact .inr ⟨q',mem_set_self hq,hset⟩
    · refine (h.present v ?_).imp_right fun hs => (exists_set _ hq hs).resolve_left (by simp [hon])
      simpa [World.addSocket,hvu] using hv
  absent v hv := by
    have hvu : v ≠ u := by
      rintro rfl
      have : s ∈ (w.addSocket v s).registry v := World.mem_addSocket.mpr (.inr ⟨rfl,rfl⟩)
      rw [hv] at this
      simp at this
    refine (h.absent v ?_).imp_right (.imp_right fun hs => (exists_set _ hq hs).resolve_left (by simp [hoff]))
    simpa [World.addSocket,hvu] using hv

/-- The user is set online in turn. -/
theorem Steady.online (h : Steady w pool) (hq : pool[p]? = some q) (hroles : Roles w.users (pool.set p q'))
    (hjoin : ∀ t v, q ≠ .connection (.join t v)) (hon : ∀ v, q.setsOnline v = true → v = u)
    (hoff : ∀ v, q.setsOffline v = false)
    (hturn : w.registry u ≠ [] ∨ w.Leaving u ∨ ∃ r ∈ pool, r.setsOffline u = true) :
    Steady (w.setOnline u) (pool.set p q') where
  roles := hroles
  joined t v ht := (h.joined t v ht).imp_right fun hr => (mem_set_or q' hq hr).resolve_left (hjoin t v)
  live := h.live
  present v hv := by
    by_cases hvu : v = u
    · subst hvu
      exact .inl (by simp [World.setOnline])
    · refine (h.present v hv).imp (fun ho => by simpa [World.setOnline,hvu] using ho) fun hs =>
        (exists_set _ hq hs).resolve_left fun hs => hvu (hon v hs)
  absent v hv := by
    by_cases hvu : v = u
    · subst hvu
      refine .inr ((hturn.resolve_left (fun hn => hn hv)).imp_right fun hs =>
        (exists_set _ hq hs).resolve_left (by simp [hoff]))
    · refine (h.absent v hv).imp (fun ho => by simpa [World.setOnline,hvu] using ho) (.imp_right fun hs =>
        (exists_set _ hq hs).resolve_left (by simp [hoff]))

/-- The user is set offline in turn. -/
theorem Steady.offline (h : Steady w pool) (hq : pool[p]? = some (.disconnect (.offline u)))
    (hturn : w.registry u = [] ∨ ∃ r ∈ pool, r.setsOnline u = true) :
    Steady (w.setOffline u) (pool.set p (.disconnect .done)) where
  roles := h.roles.step (by simp) (by simp [Call.attends])
  joined t v ht := (h.joined t v ht).imp_right fun hr => (mem_set_or _ hq hr).resolve_left (by simp)
  live := h.live
  present v hv := by
    by_cases hvu : v = u
    · subst hvu
      exact .inr ((exists_set _ hq (hturn.resolve_left hv)).resolve_left (by simp [Call.setsOnline]))
    · refine (h.present v hv).imp (fun ho => by simpa [World.setOffline,hvu] using ho) fun hs =>
        (exists_set _ hq hs).resolve_left (by simp [Call.setsOnline])
  absent v hv := by
    by_cases hvu : v = u
    · subst hvu
      exact .inl (by simp [World.setOffline])
    · refine (h.absent v hv).imp (fun ho => by simpa [World.setOffline,hvu] using ho) (.imp_right fun hs =>
        (exists_set _ hq hs).resolve_left fun hs => hvu ?_)
      simpa [Call.setsOffline,eq_comm] using hs

/-- A socket that is no longer connected is removed at the end of its connection's set-up. -/
theorem Steady.check (h : Steady w pool) (hq : pool[p]? = some (.connection (.check s u)))
    (hgone : w.isConnected s = false) : Steady (w.removeSocket u s) (pool.set p (.connection .done)) where
  roles := h.roles.step (by simp) (by simp [Call.attends])
  joined t v ht := by
    have hts : t ≠ s := by
      rintro rfl
      rw [World.Connected,World.removeSocket_clients] at ht
      simp [World.isConnected,ht] at hgone
    rcases h.joined t v ht with hr | hr
    · exact .inl (World.mem_removeSocket.mpr ⟨hr,fun he => hts he.2⟩)
    · exact .inr ((mem_set_or _ hq hr).resolve_left (by simp))
  live t v ht := h.live t v (World.mem_removeSocket.mp ht).1
  present v hv := by
    obtain ⟨t,ht⟩ := List.exists_mem_of_ne_nil _ hv
    refine (h.present v (List.ne_nil_of_mem (World.mem_removeSocket.mp ht).1)).imp_right fun hs =>
      (exists_set _ hq hs).resolve_left (by simp [Call.setsOnline])
  absent v hv := by
    by_cases hin : v = u ∧ s ∈ w.registry v
    · obtain ⟨rfl,hin⟩ := hin
      obtain ⟨⟨status,user⟩,hk,hu,hl⟩ := h.live s v hin
      obtain rfl : user = some v := hu
      have hleaving : status = .leaving := by
        cases status with
        | connected => simp [World.isConnected,hk] at hgone
        | leaving => rfl
        | left => simp at hl
      exact .inr (.inl (World.leaving_iff.mpr ⟨s,by rw [← hleaving]; exact hk⟩))
    · have hempty : w.registry v = [] := by
        refine List.eq_nil_iff_forall_not_mem.mpr fun t ht => ?_
        have : t ∈ (w.removeSocket u s).registry v := by
          refine World.mem_removeSocket.mpr ⟨ht,?_⟩
          rintro ⟨hvu,rfl⟩
          exact hin ⟨hvu,ht⟩
        rw [hv] at this
        simp at this
      exact (h.absent v hempty).imp_right (.imp_right fun hs =>
        (exists_set _ hq hs).resolve_left (by simp [Call.setsOffline]))

theorem World.getElem?_left_ne (w : World) (h : s ≠ t) :
    (w.onClient s fun k => { k with status := .left }).clients[t]? = w.clients[t]? := by
  rw [getElem?_onClient]
  simp [h]

theorem World.users_left (w : World) (s : ℕ) :
    (w.onClient s fun k => { k with status := .left }).users = w.users := by
  refine List.ext_getElem? fun t => ?_
  rw [getElem?_users,getElem?_users,getElem?_onClient,Option.map_map]
  congr 1
  funext k
  simp only [Function.comp_def]
  split <;> rfl

/-- The disconnect of a socket without user. -/
theorem Steady.forget (h : Steady w pool) (hq : pool[p]? = some (.disconnect (.start s)))
    (hk : w.clients[s]? = some ⟨.leaving,none⟩) :
    Steady (w.onClient s fun k => { k with status := .left }) (pool.set p (.disconnect .done)) where
  roles := by
    rw [w.users_left]
    exact h.roles.step (by simp) (by simp [Call.attends])
  joined t v ht := by
    have hst : s ≠ t := by
      rintro rfl
      rw [World.Connected,World.getElem?_onClient,hk] at ht
      simp at ht
    rw [World.Connected,w.getElem?_left_ne hst] at ht
    exact (h.joined t v ht).imp_right fun hr => (mem_set_or _ hq hr).resolve_left (by simp)
  live t v ht := by
    obtain ⟨k,hk',hu,hl⟩ := h.live t v ht
    have hst : s ≠ t := by
      rintro rfl
      obtain rfl := Option.some.inj (hk.symm.trans hk')
      simp at hu
    exact ⟨k,(w.getElem?_left_ne hst).trans hk',hu,hl⟩
  present v hv := (h.present v hv).imp_right fun hs => (exists_set _ hq hs).resolve_left (by simp [Call.setsOnline])
  absent v hv := by
    refine (h.absent v hv).imp_right (.imp (fun hl => ?_) fun hs =>
      (exists_set _ hq hs).resolve_left (by simp [Call.setsOffline]))
    obtain ⟨t,ht⟩ := World.leaving_iff.mp hl
    have hst : s ≠ t := by
      rintro rfl
      simp [hk] at ht
    exact World.leaving_iff.mpr ⟨t,(w.getElem?_left_ne hst).trans ht⟩

/-- The disconnect of a user's socket: the last one leaves it to the handler to set the user
offline. -/
theorem Steady.leave (h : Steady w pool) (hq : pool[p]? = some (.disconnect (.start s)))
    (hk : w.clients[s]? = some ⟨.leaving,some u⟩)
    (hnext : q' = .disconnect (if (((w.onClient s fun k => { k with status := .left }).removeSocket u s).registry
      u).length = 0 then .offline u else .done)) :
    Steady ((w.onClient s fun k => { k with status := .left }).removeSocket u s) (pool.set p q') where
  roles := by
    have husers : ((w.onClient s fun k => { k with status := .left }).removeSocket u s).users = w.users :=
      w.users_left s
    rw [husers]
    refine h.roles.step ?_ ?_ <;> rw [hnext]
    · simp
    · intro t v ht
      split at ht <;> simp [Call.attends] at ht
  joined t v ht := by
    have hst : s ≠ t := by
      rintro rfl
      rw [World.Connected,World.removeSocket_clients,World.getElem?_onClient,hk] at ht
      simp at ht
    rw [World.Connected,World.removeSocket_clients,w.getElem?_left_ne hst] at ht
    rcases h.joined t v ht with hr | hr
    · exact .inl (World.mem_removeSocket.mpr ⟨hr,fun he => hst he.2.symm⟩)
    · exact .inr ((mem_set_or _ hq hr).resolve_left (by simp))
  live t v ht := by
    obtain ⟨hin,hne⟩ := World.mem_removeSocket.mp ht
    obtain ⟨k,hk',hu,hl⟩ := h.live t v hin
    have hst : s ≠ t := by
      rintro rfl
      obtain rfl := Option.some.inj (hk.symm.trans hk')
      exact hne ⟨(Option.some.inj hu).symm,rfl⟩
    exact ⟨k,(w.getElem?_left_ne hst).trans hk',hu,hl⟩
  present v hv := by
    obtain ⟨t,ht⟩ := List.exists_mem_of_ne_nil _ hv
    refine (h.present v (List.ne_nil_of_mem (World.mem_removeSocket.mp ht).1)).imp_right fun hs =>
      (exists_set _ hq hs).resolve_left (by simp [Call.setsOnline])
  absent v hv := by
    by_cases hvu : v = u
    · subst hvu
      refine .inr (.inr ⟨q',mem_set_self hq,?_⟩)
      rw [hnext,hv]
      simp [Call.setsOffline]
    · have hsame : w.registry v = [] := by simpa [World.removeSocket,hvu] using hv
      refine (h.absent v hsame).imp_right (.imp (fun hl => ?_) fun hs =>
        (exists_set _ hq hs).resolve_left (by simp [Call.setsOffline]))
      obtain ⟨t,ht⟩ := World.leaving_iff.mp hl
      have hst : s ≠ t := by
        rintro rfl
        rw [hk] at ht
        exact hvu (by simpa [eq_comm] using ht)
      exact World.leaving_iff.mpr ⟨t,(w.getElem?_left_ne hst).trans ht⟩

theorem World.not_connected_disconnect (w : World) (s : ℕ) (u : Uuid) : ¬ (w.disconnect s).Connected s u := by
  rw [Connected,getElem?_disconnect]
  rcases w.clients[s]? with _ | ⟨status,user⟩
  · simp
  · cases status <;> simp

theorem Connection.steady {q q' : Connection} (h : Steady w pool) (hq : pool[p]? = some (.connection q))
    (hturn : (Call.connection q).InTurn ⟨w,pool⟩) (hs : q.step ch w = some (q',w')) :
    Steady w' (pool.set p (.connection q')) := by
  have hnamed : ∀ s u, (Call.connection q).attends s u = true → w.users[s]? = some (some u) :=
    h.roles.named _ (List.mem_of_getElem? hq)
  cases q with
  | accept =>
    obtain ⟨rfl,rfl⟩ : .verify w.clients.length = q' ∧ { w with clients := w.clients++[⟨.connected,none⟩] } = w' := by
      simpa [Connection.step] using hs
    exact h.accept hq
  | verify s =>
    cases hu : ch.user with
    | none =>
      obtain ⟨rfl,rfl⟩ : .done = q' ∧ w.disconnect s = w' := by simpa [Connection.step,hu] using hs
      exact h.lost.goes hq (h.lost.roles.step (by simp) (by simp [Call.attends])) (by simp)
        (by simp [Call.setsOnline]) (by simp [Call.setsOffline])
    | some u =>
      simp only [Connection.step,hu,Option.some.injEq,Prod.mk.injEq] at hs
      obtain ⟨rfl,rfl⟩ := hs
      exact h.verify hq
  | join s u =>
    have huser : w.users[s]? = some (some u) := hnamed s u (by simp [Call.attends])
    by_cases hf : ch.fails = true
    · obtain ⟨rfl,rfl⟩ : .done = q' ∧ w.disconnect s = w' := by simpa [Connection.step,hf] using hs
      refine h.lost.goes hq (h.lost.roles.step (by simp) (by simp [Call.attends])) ?_
        (by simp [Call.setsOnline]) (by simp [Call.setsOffline])
      rintro t v ht hc
      obtain ⟨rfl,rfl⟩ : s = t ∧ u = v := by simpa using ht
      exact absurd hc (w.not_connected_disconnect s u)
    · by_cases hc : w.isConnected s = true
      · obtain ⟨rfl,rfl⟩ : .online s u = q' ∧ w.addSocket u s = w' := by
          simpa [Connection.step,hf,hc] using hs
        have hconn : w.Connected s u := by
          rw [World.getElem?_users] at huser
          obtain ⟨⟨status,user⟩,hk,rfl⟩ := Option.map_eq_some_iff.mp huser
          simp only [World.isConnected,hk,Option.any_some,decide_eq_true_eq] at hc
          rw [World.Connected,hk,hc]
        refine h.add hq hconn (h.roles.step (by simp) ?_) (by simp [eq_comm]) (by simp [Call.setsOnline])
          (by simp [Call.setsOffline]) (by simp [Call.setsOnline])
        intro t v ht
        obtain ⟨rfl,rfl⟩ : s = t ∧ u = v := by simpa [Call.attends] using ht
        exact huser
      · obtain ⟨rfl,rfl⟩ : .done = q' ∧ w = w' := by simpa [Connection.step,hf,hc] using hs
        refine h.goes hq (h.roles.step (by simp) (by simp [Call.attends])) ?_ (by simp [Call.setsOnline])
          (by simp [Call.setsOffline])
        rintro t v ht hconn
        obtain ⟨rfl,rfl⟩ : s = t ∧ u = v := by simpa using ht
        rw [World.Connected] at hconn
        simp [World.isConnected,hconn] at hc
  | online s u =>
    obtain ⟨rfl,rfl⟩ : .check s u = q' ∧ w.setOnline u = w' := by simpa [Connection.step] using hs
    refine h.online hq (h.roles.step (by simp) ?_) (by simp) (by simp [Call.setsOnline])
      (by simp [Call.setsOffline]) hturn
    intro t v ht
    exact hnamed t v (by simpa [Call.attends] using ht)
  | check s u =>
    by_cases hc : w.isConnected s = true
    · obtain ⟨rfl,rfl⟩ : .done = q' ∧ w = w' := by simpa [Connection.step,hc] using hs
      exact h.goes hq (h.roles.step (by simp) (by simp [Call.attends])) (by simp) (by simp [Call.setsOnline])
        (by simp [Call.setsOffline])
    · obtain ⟨rfl,rfl⟩ : .done = q' ∧ w.removeSocket u s = w' := by simpa [Connection.step,hc] using hs
      exact h.check hq (by simpa using hc)
  | done => simp [Connection.step] at hs

theorem Disconnect.steady {q q' : Disconnect} (h : Steady w pool) (hq : pool[p]? = some (.disconnect q))
    (hturn : (Call.disconnect q).InTurn ⟨w,pool⟩) (hs : q.step w = some (q',w')) :
    Steady w' (pool.set p (.disconnect q')) := by
  cases q with
  | start s =>
    rcases hk : w.clients[s]? with _ | ⟨status,user⟩
    · simp [Disconnect.step,hk] at hs
    · by_cases hl : status = .leaving
      · subst hl
        cases user with
        | none =>
          obtain ⟨rfl,rfl⟩ : .done = q' ∧ (w.onClient s fun k => { k with status := .left }) = w' := by
            simpa [Disconnect.step,hk] using hs
          exact h.forget hq hk
        | some u =>
          simp only [Disconnect.step,hk,ne_eq,not_true_eq_false,if_false,Option.some.injEq,Prod.mk.injEq] at hs
          obtain ⟨rfl,rfl⟩ := hs
          exact h.leave hq hk rfl
      · simp [Disconnect.step,hk,hl] at hs
  | offline u =>
    obtain ⟨rfl,rfl⟩ : .done = q' ∧ w.setOffline u = w' := by simpa [Disconnect.step] using hs
    exact h.offline hq hturn
  | done => simp [Disconnect.step] at hs

theorem Beat.steady {q q' : Beat} (h : Steady w pool) (hq : pool[p]? = some (.beat q))
    (hturn : (Call.beat q).InTurn ⟨w,pool⟩) (hs : q.step ch w = some (q',w')) :
    Steady w' (pool.set p (.beat q')) := by
  have hroles : ∀ {v : World}, Steady v pool → Roles v.users (pool.set p (.beat q')) := fun hv =>
    hv.roles.step (by simp) (by simp [Call.attends])
  have hgoes : ∀ {v : World}, (∀ u, (Call.beat q).setsOnline u = false) → Steady v pool →
      Steady v (pool.set p (.beat .done)) := fun hno hv =>
    hv.goes hq (hv.roles.step (by simp) (by simp [Call.attends])) (by simp) hno (by simp [Call.setsOffline])
  cases q with
  | start s =>
    rcases hk : w.clients[s]? with _ | ⟨status,user⟩
    · simp [Beat.step,hk] at hs
    · by_cases hc : status = .connected
      · subst hc
        cases user with
        | none =>
          obtain ⟨rfl,rfl⟩ : .done = q' ∧ w = w' := by simpa [Beat.step,hk] using hs
          exact hgoes (by simp [Call.setsOnline]) h
        | some u =>
          by_cases he : ch.expired = true
          · obtain ⟨rfl,rfl⟩ : .done = q' ∧ w.disconnect s = w' := by simpa [Beat.step,hk,he] using hs
            exact hgoes (by simp [Call.setsOnline]) h.lost
          · obtain ⟨rfl,rfl⟩ : .online u = q' ∧ w.addSocket u s = w' := by simpa [Beat.step,hk,he] using hs
            exact h.add hq hk (hroles h) (by simp) (by simp [Call.setsOnline]) (by simp [Call.setsOffline])
              (by simp [Call.setsOnline])
      · obtain ⟨rfl,rfl⟩ : .done = q' ∧ w = w' := by simpa [Beat.step,hk,hc] using hs
        exact hgoes (by simp [Call.setsOnline]) h
  | online u =>
    obtain ⟨rfl,rfl⟩ : .done = q' ∧ w.setOnline u = w' := by simpa [Beat.step] using hs
    exact h.online hq (hroles h) (by simp) (by simp [Call.setsOnline]) (by simp [Call.setsOffline]) hturn
  | done => simp [Beat.step] at hs

theorem Steady.run (h : Steady w pool) (hq : pool[p]? = some q) (hturn : q.InTurn ⟨w,pool⟩)
    (hs : q.step ch w = some (q',w')) : Steady w' (pool.set p q') := by
  cases q with
  | connection q =>
    obtain ⟨⟨r,v⟩,hr,he⟩ := Option.map_eq_some_iff.mp hs
    obtain ⟨rfl,rfl⟩ := Prod.mk.inj he
    exact Connection.steady h hq hturn hr
  | disconnect q =>
    obtain ⟨⟨r,v⟩,hr,he⟩ := Option.map_eq_some_iff.mp hs
    obtain ⟨rfl,rfl⟩ := Prod.mk.inj he
    exact Disconnect.steady h hq hturn hr
  | beat q =>
    obtain ⟨⟨r,v⟩,hr,he⟩ := Option.map_eq_some_iff.mp hs
    obtain ⟨rfl,rfl⟩ := Prod.mk.inj he
    exact Beat.steady h hq hturn hr

/-- What the invariant says once all is quiet. -/
theorem Steady.agrees (h : Steady c.world c.pool) (hc : Quiet c) (u : Uuid) : c.world.Agrees u := by
  have hidle : ∀ q ∈ c.pool, (∀ s v, q ≠ .connection (.join s v)) ∧ q.setsOnline u = false ∧ q.setsOffline u = false := by
    intro q hq
    have := hc.1 q hq
    cases q with
    | connection q => cases q <;> simp_all [Call.finished,Call.setsOnline,Call.setsOffline]
    | disconnect q => cases q <;> simp_all [Call.finished,Call.setsOnline,Call.setsOffline]
    | beat q => cases q <;> simp_all [Call.finished,Call.setsOnline,Call.setsOffline]
  have hregistry : ∀ s, s ∈ c.world.registry u ↔ c.world.Connected s u := by
    refine fun s => ⟨fun hs => ?_,fun hs => ?_⟩
    · obtain ⟨⟨status,user⟩,hk,rfl,hl⟩ := h.live s u hs
      have hquiet := hc.2 _ (List.mem_of_getElem? hk)
      rw [World.Connected,hk]
      cases status <;> simp_all
    · exact (h.joined s u hs).resolve_right fun hq => (hidle _ hq).1 s u rfl
  refine ⟨?_,hregistry⟩
  by_cases hu : c.world.registry u = []
  · have hoff : c.world.online u = false := by
      rcases h.absent u hu with ho | ⟨k,hk,rfl⟩ | ⟨q,hq,hs⟩
      · exact ho
      · exact absurd rfl (hc.2 _ hk)
      · simp [(hidle q hq).2.2] at hs
    simp only [hoff,← hregistry,hu]
    simp
  · have hon : c.world.online u = true := by
      rcases h.present u hu with ho | ⟨q,hq,hs⟩
      · exact ho
      · simp [(hidle q hq).2.1] at hs
    obtain ⟨s,hs⟩ := List.exists_mem_of_ne_nil _ hu
    exact ⟨fun _ => ⟨s,(hregistry s).mp hs⟩,fun _ => hon⟩

/-- A world that agrees, before any handler. -/
theorem Steady.start (hw : ∀ u, w.Agrees u) : Steady w [] where
  roles := ⟨by simp,by simp,by simp⟩
  joined s u hc := .inl (((hw u).2 s).mpr hc)
  live s u hs := ⟨_,((hw u).2 s).mp hs,rfl,by simp⟩
  present u hu := by
    obtain ⟨s,hs⟩ := List.exists_mem_of_ne_nil _ hu
    exact .inl ((hw u).1.mpr ⟨s,((hw u).2 s).mp hs⟩)
  absent u hu := by
    refine .inl (Bool.eq_false_iff.mpr fun ho => ?_)
    obtain ⟨s,hs⟩ := (hw u).1.mp ho
    have := ((hw u).2 s).mpr hs
    simp [hu] at this

/-- As long as every write of the presence key is in turn, the key and the registry agree with
the connected sockets whenever all is quiet. -/
theorem presence_agrees (w₀ : World) (hw : ∀ u, w₀.Agrees u) {c : Config World Call}
    (hrun : Run system Orderly ⟨w₀,[]⟩ c) (hquiet : Quiet c) (u : Uuid) : c.world.Agrees u := by
  have hsteady : Steady c.world c.pool := by
    refine hrun.invariant (I := fun c => Steady c.world c.pool) (Steady.start hw) ?_
    intro a l b _ ha hl hn
    cases l with
    | spawn q =>
      simp only [System.next,Option.some.injEq] at hn
      subst hn
      exact ha.spawn hl
    | run p ch =>
      obtain ⟨q,q',w,hq,hs,rfl⟩ := system.next_run hn
      exact ha.run hq (hl q hq) hs
    | env e =>
      obtain ⟨w,hs,rfl⟩ := system.next_env hn
      obtain rfl := Option.some.inj hs
      exact ha.lost
  exact hsteady.agrees hquiet u

/-! A user's socket is lost and another takes its place. -/

instance (c : Config World Call) (q : Call) : Decidable (q.InTurn c) := by
  unfold Call.InTurn
  split <;> infer_instance

instance (c : Config World Call) : Decidable (Quiet c) := by
  unfold Quiet
  infer_instance

def starting : Call → Bool
  | .connection .accept => true
  | .disconnect (.start _) => true
  | .beat (.start _) => true
  | _ => false

theorem starting_sound (q : Call) (h : starting q = true) : q.Starts := by
  unfold starting at h
  split at h
  · exact .connection
  · exact .disconnect _
  · exact .beat _
  · simp at h

def orderly (c : Config World Call) : Label Call Choice Lost → Bool
  | .spawn q => starting q
  | .run p _ => c.pool[p]?.all fun q => q.InTurn c
  | .env _ => true

theorem orderly_sound (c : Config World Call) (l : Label Call Choice Lost) (h : orderly c l = true) :
    Orderly c l := by
  cases l with
  | spawn q => exact starting_sound q h
  | run p ch =>
    intro q hq
    simpa [orderly,hq] using h
  | env e => trivial

/-- Handlers arrive at their first step, and nothing else is asked of the run. -/
def Arriving (_ : Config World Call) : Label Call Choice Lost → Prop
  | .spawn q => q.Starts
  | .run _ _ => True
  | .env _ => True

def arriving (_ : Config World Call) : Label Call Choice Lost → Bool
  | .spawn q => starting q
  | .run _ _ => true
  | .env _ => true

theorem arriving_sound (c : Config World Call) (l : Label Call Choice Lost) (h : arriving c l = true) :
    Arriving c l := by
  cases l with
  | spawn q => exact starting_sound q h
  | run p ch => trivial
  | env e => trivial

def empty : World := ⟨[],fun _ => [],fun _ => false⟩

theorem empty_agrees (u : Uuid) : empty.Agrees u := ⟨by simp [empty,World.Connected],by simp [empty,World.Connected]⟩

def ann : Uuid := 1

def annConnects : Choice := ⟨some ann,false,false⟩

/-- Ann's socket connects and is lost; her second one is registered when the disconnect counts. -/
def relieved : List (Label Call Choice Lost) :=
  List.flatten [[.spawn (.connection .accept)],List.replicate 5 (.run 0 annConnects),
    [.env ⟨0⟩,.spawn (.disconnect (.start 0)),.spawn (.connection .accept)],
    List.replicate 3 (.run 2 annConnects),[.run 1 annConnects,.run 2 annConnects,.run 2 annConnects]]

theorem presence_agrees_relieved : ∃ c, Run system Orderly ⟨empty,[]⟩ c ∧ Quiet c ∧
    c.world.clients = [⟨.left,some ann⟩,⟨.connected,some ann⟩] ∧ c.world.Agrees ann := by
  obtain ⟨c,hc,hf⟩ := Run.exists_of_exec (S := system) (c := ⟨empty,[]⟩) orderly_sound relieved
    (f := fun c => (decide (Quiet c),c.world.clients))
    (v := (true,[⟨.left,some ann⟩,⟨.connected,some ann⟩])) (by decide +kernel)
  obtain ⟨hquiet,hclients⟩ := Prod.mk.inj hf
  have hq : Quiet c := of_decide_eq_true hquiet
  exact ⟨c,hc,hq,hclients,presence_agrees empty empty_agrees hc hq ann⟩

/-- The disconnect has counted no socket when the second one connects, and sets Ann offline when it
has. -/
def hidden : List (Label Call Choice Lost) :=
  List.flatten [[.spawn (.connection .accept)],List.replicate 5 (.run 0 annConnects),
    [.env ⟨0⟩,.spawn (.disconnect (.start 0)),.run 1 annConnects,.spawn (.connection .accept)],
    List.replicate 5 (.run 2 annConnects),[.run 1 annConnects]]

/-- Ann is connected and registered, and offline. -/
theorem presence_disagrees : ∃ c, Run system Arriving ⟨empty,[]⟩ c ∧ Quiet c ∧ c.world.Connected 1 ann ∧
    c.world.registry ann = [1] ∧ c.world.online ann = false ∧ ¬ c.world.Agrees ann := by
  obtain ⟨c,hc,hf⟩ := Run.exists_of_exec (S := system) (c := ⟨empty,[]⟩) arriving_sound hidden
    (f := fun c => (decide (Quiet c),c.world.clients[1]?,c.world.registry ann,c.world.online ann))
    (v := (true,some ⟨.connected,some ann⟩,[1],false)) (by decide +kernel)
  simp only [Prod.mk.injEq,decide_eq_true_eq] at hf
  obtain ⟨hquiet,hconn,hreg,hoff⟩ := hf
  refine ⟨c,hc,hquiet,hconn,hreg,hoff,fun h => ?_⟩
  have := h.1.mpr ⟨1,hconn⟩
  simp [hoff] at this

end ZevraServer.Presence
