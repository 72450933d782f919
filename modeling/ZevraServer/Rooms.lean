import ZevraServer.Sockets

/-!
# Rooms and memberships

A socket enters a channel's room when it connects, with `join-channel`, or when a
`create` or `addMember` calls the sockets of a user in; it leaves with `leave-channel`
or when a `removeMember` sends the sockets of a user out. All of this happens some
steps after the memberships were read or changed. The rooms agree with the
memberships, up to calls still on their way, in runs in which no call acts on a
membership that is gone and none is overtaken by a connecting socket.
-/

namespace ZevraServer

open ReadCommitted Interleaving

namespace Call

/-- A removal of the user that is committed and has not sent its sockets out yet. -/
def LeavesLater (u c : Uuid) : Call → Prop
  | .removeMember (.cleanup a _ _ _) => a.targetUserId = u ∧ a.channelId = c
  | .removeMember (.emit a _) => a.targetUserId = u ∧ a.channelId = c
  | .removeMember (.leave a _) => a.targetUserId = u ∧ a.channelId = c
  | _ => False

/-- A new membership of the user that is committed and has not called its sockets in yet. -/
def JoinsLater (u c : Uuid) : Call → Prop
  | .addMember (.touch a) => a.newUserId = u ∧ a.channelId = c
  | .addMember (.invalidate a) => a.newUserId = u ∧ a.channelId = c
  | .addMember (.join a) => a.newUserId = u ∧ a.channelId = c
  | .create (.store a channel) => u ∈ a.memberIds ∧ channel.id = c
  | .create (.join a channel true) => u ∈ a.memberIds ∧ channel.id = c
  | _ => False

/-- A connecting socket that has entered its rooms and is not announced yet. -/
def entered : Call → Option (ℕ × Uuid)
  | .connection (.register s u) => some (s,u)
  | .connection (.announce s u) => some (s,u)
  | _ => none

/-- A connecting socket that is not announced yet. -/
def connecting : Call → Option (ℕ × Uuid)
  | .connection (.channels s u) => some (s,u)
  | .connection (.join s u _) => some (s,u)
  | q => q.entered

end Call

/-- A socket is called into a room as long as its user is a member or a removal will send it
out; a removal sends out every socket in the room, or the user is a member again or another
removal follows; a connecting socket has read every membership of its user, or the call that
made it will call the socket in; `UPDATE channels` of `addMember` fails only if the new
member's sockets are in the room already or will be called in by another call. A connection
is handled for a connected socket. -/
structure FollowsMembers (d : Server) (l : Action) : Prop where
  arrives : Arrives d l
  connected : ∀ i u, l = .spawn (.connection (.channels i u)) → ∃ s ∈ d.world.sockets, s.id = i ∧ s.user = u
  called : ∀ (p : ℕ) ch q, l = .run p ch → d.pool[p]? = some q → ∀ s ∈ d.world.sockets, ∀ c,
    (q.effect ch).putsIn s c → d.world.pg.db.HasMember s.user c ∨ d.Any (·.LeavesLater s.user c)
  sent : ∀ (p : ℕ) ch a o, l = .run p ch → d.pool[p]? = some (.removeMember (.leave a o)) →
    ∀ s ∈ d.world.sockets, s.user = a.targetUserId → .channel a.channelId ∈ s.rooms →
      .user s.user ∈ s.rooms ∨ d.world.pg.db.HasMember s.user a.channelId ∨
        d.AnyBeside p (·.LeavesLater s.user a.channelId)
  read : ∀ (p : ℕ) ch i u ids, l = .run p ch → d.pool[p]? = some (.connection (.join i u ids)) →
    ch.fail = false → ∀ c, d.world.pg.db.HasMember u c → c ∈ ids ∨ d.Any (·.JoinsLater u c)
  touched : ∀ (p : ℕ) ch a, l = .run p ch → d.pool[p]? = some (.addMember (.touch a)) → ch.fail = true →
    d.AnyBeside p (·.JoinsLater a.newUserId a.channelId) ∨
    ∀ s ∈ d.world.sockets, .user a.newUserId ∈ s.rooms → .channel a.channelId ∈ s.rooms

/-- The rooms agree with the memberships, up to calls on their way. -/
structure RoomsSound (d : Server) : Prop where
  only : ∀ s ∈ d.world.sockets, ∀ c, .channel c ∈ s.rooms →
    d.world.pg.db.HasMember s.user c ∨ d.Any (·.LeavesLater s.user c)
  every : ∀ s ∈ d.world.sockets, .user s.user ∈ s.rooms → ∀ c, d.world.pg.db.HasMember s.user c →
    (.channel c ∈ s.rooms ∨ c ∈ s.left) ∨ d.Any (·.JoinsLater s.user c)
  announced : ∀ s ∈ d.world.sockets, s.announced = true → .user s.user ∈ s.rooms
  numbered : ∀ s ∈ d.world.sockets, s.id < d.world.connections
  connecting : ∀ q ∈ d.pool, ∀ i u, q.connecting = some (i,u) → i < d.world.connections
  entered : ∀ q ∈ d.pool, ∀ i u, q.entered = some (i,u) → ∀ s ∈ d.world.sockets, s.id = i → s.user = u →
    .user u ∈ s.rooms

variable {x : Externals} {p : ℕ} {ch : Choice} {w w' : World} {d e : Server} {q q' : Call} {c u : Uuid}

/-! ### One step of a call -/

namespace Call

/-- How a removal goes on. -/
theorem leaves_step (h : q.step x p ch w = some (q',w')) (hq : q.LeavesLater u c) :
    q'.LeavesLater u c ∨ ∃ a o, q = .removeMember (.leave a o) ∧ a.targetUserId = u ∧ a.channelId = c := by
  cases q with
  | removeMember q =>
    obtain ⟨s,hm,rfl⟩ := of_step h
    cases RemoveMember.edge hm with
    | invalidated hs =>
      unfold RemoveMember.joinCleanup
      split <;> exact .inl hq
    | reset hs =>
      unfold RemoveMember.joinCleanup
      split <;> exact .inl hq
    | emitted => exact .inl hq
    | @left a o => exact .inr ⟨a,o,rfl,hq⟩
    | abort hin hw err => cases q <;> first | exact hq.elim | simp [RemoveMember.inTransaction] at hin
    | _ => exact hq.elim
  | _ => exact hq.elim

/-- How a new membership goes on. -/
theorem joins_step (h : q.step x p ch w = some (q',w')) (hq : q.JoinsLater u c) :
    q'.JoinsLater u c ∨ (∃ rooms, .user u ∈ rooms ∧ q.effect ch = .socketsJoin rooms c) ∨
    ∃ a, q = .addMember (.touch a) ∧ ch.fail = true ∧ a.newUserId = u ∧ a.channelId = c := by
  cases q with
  | addMember q =>
    obtain ⟨s,hm,rfl⟩ := of_step h
    cases AddMember.edge hm with
    | @untouched a hf hw err => exact .inr (.inr ⟨a,rfl,hf,hq⟩)
    | touched hw => exact .inl hq
    | invalidated => exact .inl hq
    | @joined a =>
      obtain ⟨rfl,rfl⟩ := hq
      exact .inr (.inl ⟨_,List.mem_singleton_self _,rfl⟩)
    | refused hin hw err => cases q <;> first | exact hq.elim | simp [AddMember.early] at hin
    | _ => exact hq.elim
  | create q =>
    obtain ⟨s,hm,rfl⟩ := of_step h
    cases Create.edge hm with
    | stored => exact .inl hq
    | joined =>
      obtain ⟨hu,rfl⟩ := hq
      exact .inr (.inl ⟨_,List.mem_map_of_mem hu,rfl⟩)
    | abort hlate err => cases q <;> first | exact hq.elim | simp [Create.late] at hlate
    | failed hlate err => cases q <;> first | exact hq.elim | simp [Create.late] at hlate
    | _ => exact hq.elim
  | _ => exact hq.elim

/-- How a connecting socket goes on. -/
theorem connecting_step (h : q.step x p ch w = some (q',w')) {i : ℕ} (hq : q'.connecting = some (i,u)) :
    q.connecting = some (i,u) := by
  cases q with
  | connection q =>
    obtain ⟨s,hm,rfl⟩ := of_step h
    cases q with
    | channels i' v =>
      simp only [Connection.step] at hm
      split at hm <;> obtain ⟨rfl,_⟩ := Prod.mk.inj (Option.some.inj hm)
      · simp [connecting,Call.entered] at hq
      · exact hq
    | join i' v ids =>
      simp only [Connection.step] at hm
      split at hm <;> obtain ⟨rfl,_⟩ := Prod.mk.inj (Option.some.inj hm)
      · simp [connecting,Call.entered] at hq
      · exact hq
    | register i' v =>
      obtain ⟨rfl,_⟩ := Prod.mk.inj (Option.some.inj hm)
      exact hq
    | announce i' v =>
      obtain ⟨rfl,_⟩ := Prod.mk.inj (Option.some.inj hm)
      simp [connecting,Call.entered] at hq
    | done i' v => simp [Connection.step] at hm
    | rejected => simp [Connection.step] at hm
  | _ =>
    obtain ⟨s,hm,rfl⟩ := of_step h
    simp [connecting,Call.entered] at hq

/-- A connecting socket enters its rooms with one `join`. -/
theorem entered_step (h : q.step x p ch w = some (q',w')) {i : ℕ} (hq : q'.entered = some (i,u)) :
    q.entered = some (i,u) ∨ ∃ ids, q.effect ch = .join i u (.user u::ids) := by
  cases q with
  | connection q =>
    obtain ⟨s,hm,rfl⟩ := of_step h
    cases q with
    | channels i' v =>
      simp only [Connection.step] at hm
      split at hm <;> obtain ⟨rfl,_⟩ := Prod.mk.inj (Option.some.inj hm) <;> simp [Call.entered] at hq
    | join i' v ids =>
      simp only [Connection.step] at hm
      split at hm <;> rename_i hf <;> obtain ⟨rfl,_⟩ := Prod.mk.inj (Option.some.inj hm)
      · simp [Call.entered] at hq
      · obtain ⟨rfl,rfl⟩ := Prod.mk.inj (Option.some.inj hq)
        exact .inr ⟨ids.map .channel,by simp [effect,Connection.effect,hf]⟩
    | register i' v =>
      obtain ⟨rfl,_⟩ := Prod.mk.inj (Option.some.inj hm)
      exact .inl hq
    | announce i' v =>
      obtain ⟨rfl,_⟩ := Prod.mk.inj (Option.some.inj hm)
      simp [Call.entered] at hq
    | done i' v => simp [Connection.step] at hm
    | rejected => simp [Connection.step] at hm
  | _ =>
    obtain ⟨s,hm,rfl⟩ := of_step h
    simp [Call.entered] at hq

theorem connecting_of_entered {i : ℕ} (h : q.entered = some (i,u)) : q.connecting = some (i,u) := by
  unfold connecting
  split
  · simp [Call.entered] at h
  · simp [Call.entered] at h
  · exact h

/-- A personal room is entered by a connecting socket. -/
theorem of_effect_join {i : ℕ} {v : Uuid} {rooms : List Room} (h : q.effect ch = .join i v rooms)
    (hu : .user u ∈ rooms) :
    ∃ ids, q = .connection (.join i v ids) ∧ ch.fail = false ∧ rooms = .user v::ids.map .channel := by
  have hi := q.issues ch
  rw [h] at hi
  cases hi with
  | client a channel created s ha => simp at hu
  | joinRoom => simp at hu
  | joinAll s u ids =>
    refine ⟨ids,rfl,?_,rfl⟩
    by_contra hf
    simp [effect,Connection.effect,hf] at h

theorem Initial.entered (h : q.Initial) : q.entered = none := by
  cases h <;> rfl

theorem Initial.connecting (h : q.Initial) {i : ℕ} (hq : q.connecting = some (i,u)) :
    q = .connection (.channels i u) := by
  cases h with
  | connection s v =>
    obtain ⟨rfl,rfl⟩ := Prod.mk.inj (Option.some.inj hq)
    rfl
  | _ => simp [Call.connecting,Call.entered] at hq

/-- Whoever loses or gains a membership will be sent out or called in by the call that
committed. -/
theorem members_step (hv : (outline x).Valid d) (hq : d.pool[p]? = some q)
    (hs : q.step x p ch d.world = some (q',w')) :
    (d.world.pg.db.HasMember u c → w'.pg.db.HasMember u c ∨ q'.LeavesLater u c) ∧
    (w'.pg.db.HasMember u c → d.world.pg.db.HasMember u c ∨ q'.JoinsLater u c) := by
  have hadv := (Call.own hv.inv (hv.holds p q hq) hs).1
  by_cases hdb : w'.pg.db = d.world.pg.db
  · rw [hdb]
    exact ⟨.inl,.inl⟩
  rcases (hadv.change.resolve_left hdb).cases with ⟨_,msg,_,ht⟩ | ⟨m,c',_,ht⟩ | ⟨a,channel,ids,rfl,ht⟩ |
    ⟨a,id,now,rfl,ht⟩ | ⟨a,_,o,rfl,ht⟩
  · rw [Db.hasMember_congr ht.members]
    exact ⟨.inl,.inl⟩
  · rw [Db.hasMember_congr ht.members]
    exact ⟨.inl,.inl⟩
  · rw [ht.hasMember]
    refine ⟨fun h => .inl (.inl h),Or.imp_right fun hu => ?_⟩
    obtain ⟨s,hm,rfl⟩ := of_step hs
    simp only [Create.step] at hm
    split at hm
    · obtain ⟨_,rfl⟩ := Prod.mk.inj (Option.some.inj hm)
      exact absurd rfl hdb
    · obtain ⟨rfl,_⟩ := Prod.mk.inj (Option.some.inj hm)
      exact ⟨hu.2,hu.1.symm⟩
  · rw [ht.hasMember]
    refine ⟨fun h => .inl (.inl h),Or.imp_right fun hu => ?_⟩
    obtain ⟨s,hm,rfl⟩ := of_step hs
    cases AddMember.edge hm with
    | refused _ hw err => exact absurd (by rw [hw]) hdb
    | inserted => exact ⟨hu.1.symm,hu.2.symm⟩
  · rw [ht.hasMember]
    refine ⟨fun h => ?_,fun h => .inl h.1⟩
    by_cases hu : u = a.targetUserId ∧ c = a.channelId
    · obtain ⟨s,hm,rfl⟩ := of_step hs
      cases RemoveMember.edge hm with
      | abort _ hw err => exact absurd (by rw [hw]) hdb
      | committed hw => exact .inr ⟨hu.1.symm,hu.2.symm⟩
    · exact .inl ⟨h,hu⟩

end Call

/-! ### Runs -/

namespace RoomsSound

section

variable (h : RoomsSound d) (hl : FollowsMembers d (.run p ch)) (hv : (outline x).Valid d)
  (hq : d.pool[p]? = some q) (hs : q.step x p ch d.world = some (q',w'))

include h hl hv hq hs

theorem only_next {k : Socket} (hk : k ∈ d.world.sockets)
    (hc : .channel c ∈ ((q.effect ch).socket k).rooms) :
    w'.pg.db.HasMember k.user c ∨ (Config.mk w' (d.pool.set p q')).Any (·.LeavesLater k.user c) := by
  have hmember : d.world.pg.db.HasMember k.user c → w'.pg.db.HasMember k.user c ∨
      (Config.mk w' (d.pool.set p q')).Any (·.LeavesLater k.user c) := fun hm =>
    ((Call.members_step hv hq hs).1 hm).imp_right (.of_set hq)
  have hold : d.world.pg.db.HasMember k.user c ∨ d.Any (·.LeavesLater k.user c) := by
    rcases Effect.socket_channel hc with hin | hput
    · exact h.only k hk c hin
    · exact hl.called p ch q rfl hq k hk c hput
  rcases hold with hm | hlater
  · exact hmember hm
  · rcases hlater.beside hq with hb | hlater
    · exact .inr hb.set
    · rcases Call.leaves_step hs hlater with hlater | ⟨a,o,rfl,hu,rfl⟩
      · exact .inr (.of_set hq hlater)
      · by_cases hin : .user a.targetUserId ∈ k.rooms
        · simp only [Call.effect,RemoveMember.effect,Effect.socket,if_pos hin] at hc
          exact absurd rfl (Socket.mem_leave.mp hc).2
        · simp only [Call.effect,RemoveMember.effect,Effect.socket,if_neg hin] at hc
          rcases hl.sent p ch a o rfl hq k hk hu.symm hc with hroom | hm | hb
          · rw [hu] at hin
            exact absurd hroom hin
          · exact hmember hm
          · exact .inr hb.set

theorem every_next {k : Socket} (hk : k ∈ d.world.sockets)
    (hroom : .user k.user ∈ ((q.effect ch).socket k).rooms) (hm : w'.pg.db.HasMember k.user c) :
    (.channel c ∈ ((q.effect ch).socket k).rooms ∨ c ∈ ((q.effect ch).socket k).left) ∨
    (Config.mk w' (d.pool.set p q')).Any (·.JoinsLater k.user c) := by
  rcases (Call.members_step hv hq hs).2 hm with hm | hlater
  · have hjoins : d.Any (·.JoinsLater k.user c) → ((.channel c ∈ ((q.effect ch).socket k).rooms ∨
        c ∈ ((q.effect ch).socket k).left) ∨
        (Config.mk w' (d.pool.set p q')).Any (·.JoinsLater k.user c)) ∨ q.JoinsLater k.user c := by
      intro hlater
      rcases hlater.beside hq with hb | hlater
      · exact .inl (.inr hb.set)
      · exact .inr hlater
    rcases Effect.userRoom_of_socket hroom with hroom | ⟨i,v,rooms,hf,⟨rfl,rfl⟩,hu⟩
    · rcases h.every k hk hroom c hm with hkept | hlater
      · exact .inl (Effect.socket_kept hkept)
      · rcases hjoins hlater with hdone | hlater
        · exact hdone
        rcases Call.joins_step hs hlater with hlater | ⟨rooms,hu,hf⟩ | ⟨a,rfl,hfail,hu,rfl⟩
        · exact .inr (.of_set hq hlater)
        · refine .inl (.inl ?_)
          rw [hf]
          simp only [Effect.socket,if_pos (show ∃ r ∈ rooms, r ∈ k.rooms from ⟨_,hu,hroom⟩)]
          exact Socket.mem_join.mpr (.inr (List.mem_singleton_self _))
        · rw [← hu] at hroom ⊢
          rcases hl.touched p ch a rfl hq hfail with hb | hin
          · exact .inr hb.set
          · exact .inl (Effect.socket_kept (.inl (hin k hk hroom)))
    · obtain ⟨ids,rfl,hfail,rfl⟩ := Call.of_effect_join hf hu
      rcases hl.read p ch k.id k.user ids rfl hq hfail c hm with hin | hlater
      · refine .inl (.inl ?_)
        rw [hf]
        simp only [Effect.socket,and_self,if_true]
        exact Socket.mem_join.mpr (.inr (List.mem_cons_of_mem _ (List.mem_map_of_mem hin)))
      · exact (hjoins hlater).resolve_right id
  · exact .inr (.of_set hq hlater)

theorem next_run : RoomsSound ⟨w',d.pool.set p q'⟩ := by
  have hw := Call.step_world hs
  refine ⟨?_,?_,?_,?_,?_,?_⟩
  · intro s hsock c hc
    obtain ⟨k,hk,rfl⟩ := hw.mem_sockets hsock
    rw [Effect.socket_user]
    exact h.only_next hl hv hq hs hk hc
  · intro s hsock hroom c hm
    obtain ⟨k,hk,rfl⟩ := hw.mem_sockets hsock
    rw [Effect.socket_user] at hroom hm ⊢
    exact h.every_next hl hv hq hs hk hroom hm
  · intro s hsock hann
    obtain ⟨k,hk,rfl⟩ := hw.mem_sockets hsock
    rw [Effect.socket_user]
    refine Effect.socket_userRoom ?_
    rcases Effect.socket_announced hann with hann | ⟨i,v,hf,rfl,rfl⟩
    · exact h.announced k hk hann
    · have hi := q.issues ch
      rw [hf] at hi
      cases hi
      exact h.entered _ (List.mem_of_getElem? hq) k.id k.user rfl k hk rfl rfl
  · intro s hsock
    obtain ⟨k,hk,rfl⟩ := hw.mem_sockets hsock
    rw [Effect.socket_id,hw.connections]
    exact h.numbered k hk
  · intro r hr i u hc
    rw [hw.connections]
    rcases List.mem_or_eq_of_mem_set hr with hr | rfl
    · exact h.connecting r hr i u hc
    · exact h.connecting q (List.mem_of_getElem? hq) i u (Call.connecting_step hs hc)
  · intro r hr i u hc s hsock hid huser
    obtain ⟨k,hk,rfl⟩ := hw.mem_sockets hsock
    rw [Effect.socket_id] at hid
    rw [Effect.socket_user] at huser
    rcases List.mem_or_eq_of_mem_set hr with hr | rfl
    · exact Effect.socket_userRoom (h.entered r hr i u hc k hk hid huser)
    · rcases Call.entered_step hs hc with hc | ⟨ids,hf⟩
      · exact Effect.socket_userRoom (h.entered q (List.mem_of_getElem? hq) i u hc k hk hid huser)
      · rw [hf]
        simp only [Effect.socket,if_pos (And.intro hid huser)]
        exact Socket.mem_join.mpr (.inr List.mem_cons_self)

end

theorem next_env (h : RoomsSound d) (f : Event) : RoomsSound ⟨f.apply d.world,d.pool⟩ := by
  cases f with
  | connect v =>
    refine ⟨?_,?_,?_,?_,?_,?_⟩
    · intro s hsock c hc
      rcases List.mem_append.mp hsock with hold | hnew
      · exact h.only s hold c hc
      · obtain rfl := List.mem_singleton.mp hnew
        simp at hc
    · intro s hsock hroom c hm
      rcases List.mem_append.mp hsock with hold | hnew
      · exact h.every s hold hroom c hm
      · obtain rfl := List.mem_singleton.mp hnew
        simp at hroom
    · intro s hsock hann
      rcases List.mem_append.mp hsock with hold | hnew
      · exact h.announced s hold hann
      · obtain rfl := List.mem_singleton.mp hnew
        simp at hann
    · intro s hsock
      rcases List.mem_append.mp hsock with hold | hnew
      · exact Nat.lt_succ_of_lt (h.numbered s hold)
      · obtain rfl := List.mem_singleton.mp hnew
        exact Nat.lt_succ_self _
    · intro r hr i u hc
      exact Nat.lt_succ_of_lt (h.connecting r hr i u hc)
    · intro r hr i u hc s hsock hid huser
      rcases List.mem_append.mp hsock with hold | hnew
      · exact h.entered r hr i u hc s hold hid huser
      · obtain rfl := List.mem_singleton.mp hnew
        have hlt := h.connecting r hr i u (Call.connecting_of_entered hc)
        simp only at hid
        omega
  | disconnect i =>
    have hold : ∀ s ∈ (d.world.disconnect i).sockets, s ∈ d.world.sockets := fun s hsock =>
      (List.mem_filter.mp hsock).1
    exact ⟨fun s hsock => h.only s (hold s hsock),fun s hsock => h.every s (hold s hsock),
      fun s hsock => h.announced s (hold s hsock),fun s hsock => h.numbered s (hold s hsock),h.connecting,
      fun r hr i u hc s hsock => h.entered r hr i u hc s (hold s hsock)⟩
  | expireMembers c => exact ⟨h.only,h.every,h.announced,h.numbered,h.connecting,h.entered⟩
  | expireMessages c => exact ⟨h.only,h.every,h.announced,h.numbered,h.connecting,h.entered⟩

theorem next {l : Action} (h : RoomsSound d) (hv : (outline x).Valid d) (hl : FollowsMembers d l)
    (hn : (server x).next d l = some e) : RoomsSound e := by
  cases l with
  | spawn q =>
    obtain rfl := Option.some.inj hn
    refine ⟨fun s hsock c hc => (h.only s hsock c hc).imp_right (·.append),
      fun s hsock hroom c hm => (h.every s hsock hroom c hm).imp_right (·.append),h.announced,h.numbered,
      fun r hr i u hc => ?_,fun r hr i u hc => ?_⟩ <;> rcases List.mem_append.mp hr with hr | hr
    · exact h.connecting r hr i u hc
    · obtain rfl := List.mem_singleton.mp hr
      obtain ⟨s,hsock,rfl,_⟩ := hl.connected i u (by rw [Call.Initial.connecting hl.arrives hc])
      exact h.numbered s hsock
    · exact h.entered r hr i u hc
    · obtain rfl := List.mem_singleton.mp hr
      rw [Call.Initial.entered hl.arrives] at hc
      simp at hc
  | run p ch =>
    obtain ⟨q,q',w',hq,hs,rfl⟩ := (server x).next_run hn
    exact h.next_run hl hv hq hs
  | env f =>
    obtain ⟨w',hw,rfl⟩ := (server x).next_env hn
    obtain rfl := Option.some.inj hw
    exact h.next_env f

end RoomsSound

end ZevraServer
