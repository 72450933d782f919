import ZevraServer.Edges

/-!
# The cached member set

A snapshot of a channel's members is read from the table and written to Redis in two
steps, and a membership change drops the key after its commit. Outside the channels
whose invalidation is still owed the key is current, if no snapshot is written that
the table has left behind and no invalidation is lost while the key is outdated.
-/

namespace ZevraServer

open ReadCommitted Interleaving

/-! ### Invalidations owed -/

namespace Call

/-- The channel whose key a call still has to drop. -/
def owes : Call → Option Uuid
  | .addMember (.touch a) => some a.channelId
  | .addMember (.invalidate a) => some a.channelId
  | .removeMember (.cleanup a _ false _) => some a.channelId
  | _ => none

/-- The step with which a call stops owing its invalidation, and whether it drops the key:
an `addMember` whose `UPDATE channels` fails, or Redis being unavailable, leaves it. -/
def settles (ch : Choice) : Call → Option (Uuid × Bool)
  | .addMember (.touch a) => if ch.fail then some (a.channelId,false) else none
  | .addMember (.invalidate a) => some (a.channelId,!ch.fail)
  | .removeMember (.cleanup a _ false _) => if ch.side then some (a.channelId,!ch.fail) else none
  | _ => none

end Call

/-- A call other than `p` has committed a membership change of the channel and has its
invalidation ahead. -/
def OwedBeside (d : Server) (p : ℕ) (c : Uuid) : Prop := d.AnyBeside p (·.owes = some c)

def Owed (d : Server) (c : Uuid) : Prop := d.Any (·.owes = some c)

/-- The listed users are those with a membership row in the channel. -/
def Current (db : Db) (c : Uuid) (userIds : List Uuid) : Prop :=
  ∀ u, u ∈ userIds ↔ (db.membership? u c).isSome = true

/-- A snapshot is written while it is current or the channel's invalidation is still
owed; an invalidation is lost only while the key is absent or current or another call
owes one. -/
structure KeepsCurrent (d : Server) (l : Action) : Prop where
  arrives : Arrives d l
  stores : ∀ (p : ℕ) ch q c ms, l = .run p ch → d.pool[p]? = some q → q.effect ch = .setMembers c ms →
    ms = [] ∨ Owed d c ∨ Current d.world.pg.db c ms
  drops : ∀ (p : ℕ) ch q c, l = .run p ch → d.pool[p]? = some q → q.settles ch = some (c,false) →
    OwedBeside d p c ∨ d.world.redis.channelMembers c = [] ∨
      Current d.world.pg.db c (d.world.redis.channelMembers c)

variable {x : Externals} {p : ℕ} {ch : Choice} {w w' : World} {d e : Server} {c : Uuid}

theorem Current.congr {db db' : Db} {ms : List Uuid} (hm : ∀ u, db'.HasMember u c ↔ db.HasMember u c) :
    Current db' c ms ↔ Current db c ms := by
  simp only [Current,Db.membership?_isSome,hm]

/-- Who is listed as a member is one in an existing channel. -/
theorem Current.hasChannel {db : Db} {ms : List Uuid} (hi : Integrity db) (h : Current db c ms)
    (hne : ms ≠ []) : db.HasChannel c := by
  obtain ⟨u,hu⟩ := List.exists_mem_of_ne_nil ms hne
  exact hi.hasMember_channel ((db.membership?_isSome u c).mp ((h u).mp hu))

namespace Call

variable {q q' : Call}

/-- Where a debt comes from. -/
theorem owes_step (h : q.step x p ch w = some (q',w')) (ho : q'.owes = some c) : q.owes = some c ∨
    (∃ a, q = .addMember (.insert a) ∧ a.channelId = c) ∨
    ∃ a o, q = .removeMember (.commit a o) ∧ a.channelId = c := by
  cases q with
  | addMember q =>
    obtain ⟨s,hm,rfl⟩ := of_step h
    cases AddMember.edge hm with
    | inserted => exact .inr (.inl ⟨_,rfl,Option.some.inj ho⟩)
    | touched hw => exact .inl ho
    | _ => simp [owes] at ho
  | removeMember q =>
    obtain ⟨s,hm,rfl⟩ := of_step h
    cases RemoveMember.edge hm with
    | committed hw => exact .inr (.inr ⟨_,_,rfl,Option.some.inj ho⟩)
    | invalidated hs =>
      unfold RemoveMember.joinCleanup at ho
      split at ho <;> simp [owes] at ho
    | @reset a o i hs =>
      cases i with
      | false => exact .inl ho
      | true => simp [RemoveMember.joinCleanup,owes] at ho
    | _ => simp [owes] at ho
  | _ =>
    obtain ⟨s,hm,rfl⟩ := of_step h
    simp [owes] at ho

/-- How a debt ends. -/
theorem settles_step (h : q.step x p ch w = some (q',w')) (ho : q.owes = some c) :
    q'.owes = some c ∨ ∃ dropped, q.settles ch = some (c,dropped) ∧
      q.effect ch = if dropped then .invalidate c else .nothing := by
  cases q with
  | addMember q =>
    obtain ⟨s,hm,rfl⟩ := of_step h
    cases q with
    | touch a =>
      obtain rfl := Option.some.inj ho
      cases AddMember.edge hm with
      | refused hq hw err => simp [AddMember.early] at hq
      | untouched hf hw err => exact .inr ⟨false,by simp [settles,hf],rfl⟩
      | touched hw => exact .inl rfl
    | invalidate a =>
      obtain rfl := Option.some.inj ho
      refine .inr ⟨!ch.fail,rfl,?_⟩
      cases hf : ch.fail <;> simp [effect,AddMember.effect,Effect.unless,hf]
    | _ => simp [owes] at ho
  | removeMember q =>
    obtain ⟨s,hm,rfl⟩ := of_step h
    cases q with
    | cleanup a o i r =>
      cases i with
      | true => simp [owes] at ho
      | false =>
        obtain rfl := Option.some.inj ho
        cases RemoveMember.edge hm with
        | abort hq hw err => simp [RemoveMember.inTransaction] at hq
        | invalidated hs =>
          refine .inr ⟨!ch.fail,by simp [settles,hs],?_⟩
          cases hf : ch.fail <;> simp [effect,RemoveMember.effect,Effect.unless,hf,hs]
        | reset hs => exact .inl rfl
    | _ => simp [owes] at ho
  | _ => simp [owes] at ho

theorem Commits.owes {db db' : Db} (h : q.Commits db db') : q.owes = none := by
  rcases h.cases with ⟨_,_,rfl,_⟩ | ⟨_,_,rfl,_⟩ | ⟨_,_,_,rfl,_⟩ | ⟨_,_,_,rfl,_⟩ | ⟨_,_,_,rfl,_⟩ <;> rfl

end Call

/-! ### The key after a step -/

theorem Effect.apply_channelMembers (f : Effect) (w : World) (c : Uuid) :
    (f.apply w).redis.channelMembers c = w.redis.channelMembers c ∨
    f = .invalidate c ∧ (f.apply w).redis.channelMembers c = [] ∨
    ∃ ms, f = .setMembers c ms ∧ ms ≠ [] ∧ (f.apply w).redis.channelMembers c = ms.dedup := by
  cases f with
  | setMembers c' ms =>
    by_cases hms : ms = []
    · exact .inl (by simp [Effect.apply,Redis.setMembers,hms])
    · by_cases hc : c = c'
      · subst hc
        exact .inr (.inr ⟨ms,rfl,hms,by simp [Effect.apply,Redis.setMembers,hms]⟩)
      · exact .inl (by simp [Effect.apply,Redis.setMembers,hms,Function.update_of_ne hc])
  | invalidate c' =>
    by_cases hc : c = c'
    · subst hc
      exact .inr (.inl ⟨rfl,by simp [Effect.apply,Redis.invalidate]⟩)
    · exact .inl (by simp [Effect.apply,Redis.invalidate,Function.update_of_ne hc])
  | _ => exact .inl rfl

theorem AfterStep.channelMembers {f : Effect} (h : AfterStep w w' f) (c : Uuid) :
    w'.redis.channelMembers c = w.redis.channelMembers c ∨
    f = .invalidate c ∧ w'.redis.channelMembers c = [] ∨
    ∃ ms, f = .setMembers c ms ∧ ms ≠ [] ∧ w'.redis.channelMembers c = ms.dedup := by
  rw [AfterStep] at h
  rw [h]
  exact Effect.apply_channelMembers f _ c

/-! ### Runs -/

/-- The key is absent, current, or about to be dropped. -/
structure CacheSound (d : Server) : Prop where
  owed : ∀ c, Owed d c → d.world.pg.db.HasChannel c
  key : ∀ c, d.world.redis.channelMembers c ≠ [] → Owed d c ∨
    Current d.world.pg.db c (d.world.redis.channelMembers c)

theorem CacheSound.hasChannel (hi : Integrity d.world.pg.db) (h : CacheSound d)
    (hk : d.world.redis.channelMembers c ≠ []) : d.world.pg.db.HasChannel c := by
  rcases h.key c hk with ho | hc
  · exact h.owed c ho
  · exact hc.hasChannel hi hk

section

variable {q q' : Call}

variable (hq : d.pool[p]? = some q)

include hq

/-- A step that leaves the tables alone keeps the key sound. -/
theorem CacheSound.key_of_same (h : CacheSound d) (hl : KeepsCurrent d (.run p ch))
    (hs : q.step x p ch d.world = some (q',w')) (hdb : w'.pg.db = d.world.pg.db)
    (hk : w'.redis.channelMembers c ≠ []) :
    Owed ⟨w',d.pool.set p q'⟩ c ∨ Current w'.pg.db c (w'.redis.channelMembers c) := by
  rw [hdb]
  rcases (Call.step_world hs).channelMembers c with he | ⟨_,he⟩ | ⟨ms,hf,hne,he⟩
  · rw [he] at hk ⊢
    rcases h.key c hk with ho | hcur
    · rcases ho.beside hq with hb | ho
      · exact .inl hb.set
      · rcases Call.settles_step hs ho with ho' | ⟨dropped,hset,hf⟩
        · exact .inl (.of_set hq ho')
        · cases dropped with
          | false =>
            rcases hl.drops p ch q c rfl hq hset with hb | hnil | hcur
            · exact .inl hb.set
            · exact absurd hnil hk
            · exact .inr hcur
          | true =>
            have hw := Call.step_world hs
            rw [AfterStep,hf] at hw
            rw [← he,hw] at hk
            simp [Effect.apply,Redis.invalidate] at hk
    · exact .inr hcur
  · exact absurd he hk
  · rw [he]
    rcases hl.stores p ch q c ms rfl hq hf with hnil | ho | hcur
    · exact absurd hnil hne
    · rcases ho.beside hq with hb | ho
      · exact .inl hb.set
      · rcases Call.settles_step hs ho with ho' | ⟨dropped,_,hf'⟩
        · exact .inl (.of_set hq ho')
        · rw [hf'] at hf
          cases dropped <;> simp at hf
    · exact .inr fun u => by rw [List.mem_dedup]; exact hcur u

/-- A committed change of the memberships is followed by its invalidation, or is a new
channel, whose key is absent. -/
theorem CacheSound.key_of_commit (h : CacheSound d) (hi : Integrity d.world.pg.db)
    (hs : q.step x p ch d.world = some (q',w')) (hc : q.Commits d.world.pg.db w'.pg.db)
    (hdb : w'.pg.db ≠ d.world.pg.db) (hk : w'.redis.channelMembers c ≠ []) :
    Owed ⟨w',d.pool.set p q'⟩ c ∨ Current w'.pg.db c (w'.redis.channelMembers c) := by
  have hkey : w'.redis.channelMembers c = d.world.redis.channelMembers c := by
    rw [hc.world hs]
  rw [hkey] at hk ⊢
  have hchan := h.hasChannel hi hk
  rcases (h.key c hk).imp_left (·.beside hq) with (hb | ho') | hcur
  · exact .inl hb.set
  · simp [hc.owes] at ho'
  rcases hc.cases with ⟨_,msg,_,ht⟩ | ⟨m,c',_,ht⟩ | ⟨a,channel,ids,_,ht⟩ | ⟨a,id,now,rfl,ht⟩ |
    ⟨a,_,o,rfl,ht⟩
  · exact .inr ((Current.congr fun u => Db.hasMember_congr ht.members u c).mpr hcur)
  · exact .inr ((Current.congr fun u => Db.hasMember_congr ht.members u c).mpr hcur)
  · refine .inr ((Current.congr fun u => ?_).mpr hcur)
    rw [ht.hasMember]
    refine or_iff_left fun hu => ht.fresh ?_
    rwa [hu.1] at hchan
  · by_cases he : a.channelId = c
    · obtain ⟨s,hm,rfl⟩ := Call.of_step hs
      cases AddMember.edge hm with
      | refused _ hw err => exact absurd (by rw [hw]) hdb
      | inserted => exact .inl (.of_set hq (by rw [← he]; rfl))
    · refine .inr ((Current.congr fun u => ?_).mpr hcur)
      rw [ht.hasMember]
      exact or_iff_left fun hu => he hu.2.symm
  · by_cases he : a.channelId = c
    · obtain ⟨s,hm,rfl⟩ := Call.of_step hs
      cases RemoveMember.edge hm with
      | abort _ hw err => exact absurd (by rw [hw]) hdb
      | committed hw => exact .inl (.of_set hq (by rw [← he]; rfl))
    · refine .inr ((Current.congr fun u => ?_).mpr hcur)
      rw [ht.hasMember]
      exact and_iff_left fun hu => he hu.2.symm

/-- Debts are owed for existing channels. -/
theorem CacheSound.owed_next (h : CacheSound d) (hv : (outline x).Valid d)
    (hs : q.step x p ch d.world = some (q',w')) (hg : Grows d.world.pg.db w'.pg.db)
    (ho : Owed ⟨w',d.pool.set p q'⟩ c) : w'.pg.db.HasChannel c := by
  refine hg.hasChannel ?_
  obtain ⟨r,s,hr,ho⟩ := ho
  rcases pool_set hr with ⟨rfl,rfl⟩ | ⟨_,hr⟩
  · have hass := hv.holds r q hq
    rcases Call.owes_step hs ho with ho | ⟨a,rfl,rfl⟩ | ⟨a,o,rfl,rfl⟩
    · exact h.owed c ⟨r,q,hq,ho⟩
    · exact hass.2.hasChannel
    · obtain ⟨o',hopen,_⟩ := hass
      exact hopen.channel
  · exact h.owed c ⟨r,s,hr,ho⟩

end

theorem Call.Initial.owes {q : Call} (h : q.Initial) : q.owes ≠ some c := by
  cases h <;> simp [Call.owes]

theorem CacheSound.next {l : Action} (h : CacheSound d) (hv : (outline x).Valid d)
    (hl : KeepsCurrent d l) (hn : (server x).next d l = some e) : CacheSound e := by
  cases l with
  | spawn q =>
    obtain rfl := Option.some.inj hn
    exact ⟨fun c ho => h.owed c (ho.of_append (Call.Initial.owes hl.arrives)),
      fun c hk => (h.key c hk).imp_left (·.append)⟩
  | run p ch =>
    obtain ⟨q,q',w',hq,hs,rfl⟩ := (server x).next_run hn
    rcases step_refines hv hn with hdb | ⟨p',r,ch',hl',hr,hc⟩
    · exact ⟨fun c => h.owed_next hq hv hs (hdb ▸ Grows.refl _),fun c => h.key_of_same hq hl hs hdb⟩
    · obtain ⟨rfl,rfl⟩ := Label.run.inj hl'
      obtain rfl := Option.some.inj (hq.symm.trans hr)
      refine ⟨fun c => h.owed_next hq hv hs hc.transition.grows,fun c hk => ?_⟩
      by_cases hdb : w'.pg.db = d.world.pg.db
      · exact h.key_of_same hq hl hs hdb hk
      · exact h.key_of_commit hq hv.inv.integrity hs hc hdb hk
  | env f =>
    obtain ⟨w',hw,rfl⟩ := (server x).next_env hn
    obtain rfl := Option.some.inj hw
    refine ⟨fun c ho => ?_,fun c hk => ?_⟩
    · rw [Event.apply_pg]
      exact h.owed c ho
    · rcases f.channelMembers d.world c with he | he
      · rw [he] at hk ⊢
        rw [Event.apply_pg]
        exact h.key c hk
      · exact absurd he hk

theorem Reach.cacheSound (hw : Start w) (h₀ : ∀ c, w.redis.channelMembers c = [])
    (h : Reach x KeepsCurrent w d) : CacheSound d := by
  refine h.invariant ⟨?_,fun c hk => absurd (h₀ c) hk⟩ fun a l b hr ha hl hn => ?_
  · rintro c ⟨r,q,hr,_⟩
    simp at hr
  · exact ha.next (Reach.valid (fun _ _ hl => hl.arrives) hw hr) hl hn

theorem MembershipQuiet.not_owed (h : MembershipQuiet d) (c : Uuid) : ¬ Owed d c := by
  rintro ⟨r,q,hr,ho⟩
  have hq := h q (List.mem_of_getElem? hr)
  cases q with
  | addMember q => rcases hq with ⟨a,rfl⟩ | ⟨err,rfl⟩ <;> simp [Call.owes] at ho
  | removeMember q => rcases hq with ⟨a,o,rfl⟩ | ⟨err,rfl⟩ <;> simp [Call.owes] at ho
  | _ => simp [Call.owes] at ho

/-- In every run that writes current snapshots only and loses no invalidation of an outdated
key, a key present while no membership call is in progress lists exactly the members, and
`isMember` and `getMembers` answer from it as the table would. -/
theorem cached_members_authoritative (hw : Start w) (h₀ : ∀ c, w.redis.channelMembers c = [])
    (h : Reach x KeepsCurrent w d) (hq : MembershipQuiet d) (c : Uuid)
    (hk : d.world.redis.channelMembers c ≠ []) :
    (∀ u, u ∈ d.world.redis.channelMembers c ↔ u ∈ d.world.pg.db.memberIds c) ∧
    (∀ u ch, ch.fail = false → (IsMember.multi c u).step ch d.world =
      some (.done (d.world.pg.db.membership? u c).isSome,d.world)) ∧
    ∀ ch, ch.fail = false → ∃ ms, (GetMembers.cached c).step ch d.world = some (.done ms,d.world) ∧
      ∀ u, u ∈ ms ↔ u ∈ d.world.pg.db.memberIds c := by
  have hcur := ((h.cacheSound hw h₀).key c hk).resolve_left (hq.not_owed c)
  have hmem : ∀ u, u ∈ d.world.redis.channelMembers c ↔ u ∈ d.world.pg.db.memberIds c := fun u => by
    rw [hcur u,Db.membership?_isSome,Db.mem_memberIds]
  refine ⟨hmem,fun u ch hf => ?_,fun ch hf => ⟨_,?_,hmem⟩⟩
  · have hb : (d.world.redis.channelMembers c).contains u = (d.world.pg.db.membership? u c).isSome := by
      rw [Bool.eq_iff_iff,List.contains_iff_mem]
      exact hcur u
    simp [IsMember.step,hf,hk,← hb]
  · simp [GetMembers.step,hf,hk]

/-- The condition as a check that also refuses every lost invalidation. -/
def keepsCurrent (d : Server) (l : Action) : Bool :=
  arrives d l && match l with
    | .run p ch =>
      (d.pool[p]?).all fun q =>
        (match q.effect ch with
          | .setMembers c ms =>
            ms.all (· ∈ d.world.pg.db.memberIds c) && (d.world.pg.db.memberIds c).all (· ∈ ms)
          | _ => true) && (q.settles ch).all (·.2)
    | _ => true

theorem keepsCurrent_sound (d : Server) (l : Action) (h : keepsCurrent d l = true) : KeepsCurrent d l := by
  obtain ⟨harr,hrun⟩ := Bool.and_eq_true_iff.mp h
  refine ⟨arrives_sound d l harr,?_,?_⟩
  · rintro p ch q c ms rfl hp hf
    simp only [hp,hf,Option.all_some,Bool.and_eq_true,List.all_eq_true,decide_eq_true_eq] at hrun
    refine .inr (.inr fun u => ?_)
    rw [Db.membership?_isSome,← Db.mem_memberIds]
    exact ⟨hrun.1.1 u,hrun.1.2 u⟩
  · rintro p ch q c rfl hp hset
    simp [hp,hset] at hrun

/-- The cache is filled, a third member is added, and the cache is filled again. -/
def refilled : List Action :=
  .spawn (.getMembers (.cached 10))::steps 0 3++
    .spawn (.addMember (.role ⟨10,1,3,none⟩))::steps 1 4++.run 1 (drawing [102])::steps 1 4++
    .spawn (.getMembers (.cached 10))::steps 2 3

theorem cached_members_authoritative_refilled :
    ∃ d, Reach plain KeepsCurrent smallWorld d ∧ MembershipQuiet d ∧
      d.world.redis.channelMembers 10 = [1,2,3] ∧
      ∀ u, u ∈ d.world.redis.channelMembers 10 ↔ u ∈ d.world.pg.db.memberIds 10 := by
  obtain ⟨d,hr,hd⟩ := Run.exists_of_exec (S := server plain) (c := ⟨smallWorld,[]⟩)
    keepsCurrent_sound refilled (f := fun d => (d.pool,d.world.redis.channelMembers 10))
    (v := ([.getMembers (.done [1,2]),.addMember (.done ⟨10,1,3,none⟩),.getMembers (.done [1,2,3])],
      [1,2,3])) (by decide +kernel)
  obtain ⟨hpool,hkey⟩ := Prod.mk.inj hd
  have hquiet : MembershipQuiet d := by
    intro q hq
    rw [hpool] at hq
    simp only [List.mem_cons,List.not_mem_nil,or_false] at hq
    rcases hq with rfl | rfl | rfl <;> simp
  exact ⟨d,hr,hquiet,hkey,
    (cached_members_authoritative smallWorld_start (fun _ => rfl) hr hquiet 10 (by simp [hkey])).1⟩

/-- A snapshot is read before a third member is added and written after the invalidation. -/
def staleSnapshot : List Action :=
  .spawn (.getMembers (.cached 10))::steps 0 2++
    .spawn (.addMember (.role ⟨10,1,3,none⟩))::steps 1 4++.run 1 (drawing [102])::steps 1 4++steps 0 1

/-- Both calls are over and the key lacks the new member. -/
theorem cached_members_outdated :
    ∃ d, Reach plain Arrives smallWorld d ∧
      d.pool = [.getMembers (.done [1,2]),.addMember (.done ⟨10,1,3,none⟩)] ∧
      d.world.redis.channelMembers 10 ≠ [] ∧
      ¬ ∀ u, u ∈ d.world.redis.channelMembers 10 ↔ u ∈ d.world.pg.db.memberIds 10 := by
  obtain ⟨d,hr,hd⟩ := Run.exists_of_exec (S := server plain) (c := ⟨smallWorld,[]⟩) arrives_sound
    staleSnapshot
    (f := fun d => (d.pool,d.world.redis.channelMembers 10,d.world.pg.db.memberIds 10))
    (v := ([.getMembers (.done [1,2]),.addMember (.done ⟨10,1,3,none⟩)],[1,2],[1,2,3]))
    (by decide +kernel)
  obtain ⟨hpool,hd⟩ := Prod.mk.inj hd
  obtain ⟨hkey,hids⟩ := Prod.mk.inj hd
  refine ⟨d,hr,hpool,by simp [hkey],fun h => ?_⟩
  have h3 := h 3
  rw [hkey,hids] at h3
  simp at h3

end ZevraServer
