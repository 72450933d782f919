import ZevraServer.Copies
import ZevraServer.Sockets

/-!
# Delivery

`send` looks up the members and takes a snapshot of the room, emits `message:new`, and
leaves a job that queues the message for the members the snapshot did not show. A
member is reached by the emit or finds the message in its pending queue, if nobody
the snapshot showed leaves the room before the emit and the job's write to the
pending queues does not fail. Memberships do not change in the runs of this module.
-/

namespace ZevraServer

open ReadCommitted Interleaving

/-! ### Member lists -/

/-- The list has every member of the channel. -/
def Complete (db : Db) (c : Uuid) (userIds : List Uuid) : Prop := ∀ u, db.HasMember u c → u ∈ userIds

/-- What a lookup of the members of `c` has found so far. -/
def GetMembers.Covers (db : Db) (c : Uuid) : GetMembers → Prop
  | .cached c' => c' = c
  | .select c' => c' = c
  | .store c' ms => c' = c ∧ Complete db c ms
  | .done ms => Complete db c ms
  | .failed _ => True

def IsMember.Covers (db : Db) : IsMember → Prop
  | .members g _ => ∃ c, g.Covers db c
  | _ => True

/-- The lists a call has looked up are complete, and it changes no membership. -/
def Call.Covers (db : Db) : Call → Prop
  | .getMembers g => ∃ c, g.Covers db c
  | .isMember q => q.Covers db
  | .room (.member _ _ _ _ q) => q.Covers db
  | .send (.lookup m _ g _) => g.Covers db m.channelId
  | .send (.emit m _ ms _) => Complete db m.channelId ms
  | .create _ | .addMember _ | .removeMember _ => False
  | _ => True

/-- Every key that is present lists every member. -/
def KeysCover (db : Db) (w : World) : Prop :=
  ∀ c, w.redis.channelMembers c = [] ∨ Complete db c (w.redis.channelMembers c)

variable {x : Externals} {p : ℕ} {ch : Choice} {w w' : World} {d e : Server} {q q' : Call} {db : Db}

theorem GetMembers.covers_step {g g' : GetMembers} {c : Uuid} (h : g.step ch w = some (g',w'))
    (hk : KeysCover db w) (hm : w.pg.db.members = db.members) (hg : g.Covers db c) : g'.Covers db c := by
  cases g with
  | cached c' =>
    obtain rfl : c' = c := hg
    simp only [GetMembers.step] at h
    split_ifs at h with hf hnil <;> obtain ⟨rfl,_⟩ := Prod.mk.inj (Option.some.inj h)
    · exact rfl
    · exact rfl
    · exact (hk c').resolve_left (by simpa using hnil)
  | select c' =>
    obtain rfl : c' = c := hg
    simp only [GetMembers.step] at h
    split_ifs at h <;> obtain ⟨rfl,_⟩ := Prod.mk.inj (Option.some.inj h)
    · trivial
    · refine ⟨rfl,fun u hu => ?_⟩
      rw [Db.mem_memberIds]
      exact (Db.hasMember_congr hm u c').mpr hu
  | store c' ms =>
    simp only [GetMembers.step] at h
    split_ifs at h <;> obtain ⟨rfl,_⟩ := Prod.mk.inj (Option.some.inj h) <;> exact hg.2
  | done ms => simp [GetMembers.step] at h
  | failed err => simp [GetMembers.step] at h

theorem IsMember.covers_step {q q' : IsMember} (h : q.step ch w = some (q',w')) (hk : KeysCover db w)
    (hm : w.pg.db.members = db.members) (hq : q.Covers db) : q'.Covers db := by
  cases q with
  | members g u =>
    obtain ⟨⟨g',v⟩,hg,he⟩ := Option.map_eq_some_iff.mp h
    obtain ⟨rfl,rfl⟩ := Prod.mk.inj he
    obtain ⟨c,hc⟩ := hq
    have hc' := GetMembers.covers_step hg hk hm hc
    cases g' with
    | done ms => trivial
    | failed err => trivial
    | _ => exact ⟨c,hc'⟩
  | multi c u =>
    simp only [IsMember.step] at h
    split_ifs at h <;> obtain ⟨rfl,_⟩ := Prod.mk.inj (Option.some.inj h)
    · trivial
    · exact ⟨c,rfl⟩
    · exact ⟨c,rfl⟩
    · trivial
  | row c u =>
    simp only [IsMember.step] at h
    split_ifs at h <;> obtain ⟨rfl,_⟩ := Prod.mk.inj (Option.some.inj h) <;> trivial
  | done b => simp [IsMember.step] at h
  | failed err => simp [IsMember.step] at h

theorem Send.joinLookup_covers {m : MessagePayload} {u : Option ℕ} {g : GetMembers}
    {k : Option (Option (List Uuid))} (hg : g.Covers db m.channelId) :
    (Call.send (Send.joinLookup m u g k)).Covers db := by
  unfold Send.joinLookup
  split
  · trivial
  · exact hg
  · exact hg

theorem Call.covers_step (h : q.step x p ch w = some (q',w')) (hk : KeysCover db w)
    (hm : w.pg.db.members = db.members) (hq : q.Covers db) : q'.Covers db := by
  cases q with
  | send q =>
    obtain ⟨s,hs,rfl⟩ := of_step h
    cases Send.edge hs with
    | committed hw => exact rfl
    | snapshot hside hw => exact Send.joinLookup_covers hq
    | members hside hg => exact Send.joinLookup_covers (GetMembers.covers_step hg hk hm hq)
    | _ => trivial
  | getMembers g =>
    obtain ⟨s,hs,rfl⟩ := of_step h
    obtain ⟨c,hc⟩ := hq
    exact ⟨c,GetMembers.covers_step hs hk hm hc⟩
  | isMember q =>
    obtain ⟨s,hs,rfl⟩ := of_step h
    exact IsMember.covers_step hs hk hm hq
  | room q =>
    obtain ⟨s,hs,rfl⟩ := of_step h
    cases q with
    | member k u c joins call =>
      obtain ⟨⟨call',v⟩,hc,he⟩ := Option.map_eq_some_iff.mp hs
      obtain ⟨rfl,rfl⟩ := Prod.mk.inj he
      have hcall := IsMember.covers_step hc hk hm hq
      cases call' with
      | done b => cases b <;> trivial
      | failed err => trivial
      | _ => exact hcall
    | move k u c joins =>
      obtain ⟨rfl,_⟩ := Prod.mk.inj (Option.some.inj hs)
      trivial
    | done k u c joins => simp [RoomCall.step] at hs
    | failed code => simp [RoomCall.step] at hs
  | create q => exact hq.elim
  | addMember q => exact hq.elim
  | removeMember q => exact hq.elim
  | _ =>
    obtain ⟨s,hs,rfl⟩ := of_step h
    trivial

/-- A list that is written to a key is complete. -/
theorem Call.covers_effect {c : Uuid} {ms : List Uuid} (hq : q.Covers db)
    (h : q.effect ch = .setMembers c ms) : Complete db c ms := by
  have hi := q.issues ch
  rw [h] at hi
  cases hi with
  | snapshot hl =>
    have hg : ∃ c', (GetMembers.store c ms).Covers db c' := by
      unfold Call.lookup at hl
      split at hl <;> simp only [Option.some.injEq,reduceCtorEq] at hl <;> subst hl
      · exact hq
      · exact hq
      · exact hq
      · exact ⟨_,hq⟩
    obtain ⟨c',rfl,hg⟩ := hg
    exact hg
  | created a channel => exact hq.elim

theorem KeysCover.next {f : Effect} (h : KeysCover db w) (ha : AfterStep w w' f)
    (hf : ∀ c ms, f = .setMembers c ms → Complete db c ms) : KeysCover db w' := by
  rw [AfterStep] at ha
  intro c
  cases f with
  | setMembers c' ms =>
    rw [ha]
    simp only [Effect.apply,Redis.setMembers]
    split
    · exact h c
    · by_cases hc : c = c'
      · subst hc
        simp only [Function.update_self]
        exact .inr fun u hu => List.mem_dedup.mpr (hf c ms rfl u hu)
      · simp only [Function.update_of_ne hc]
        exact h c
  | invalidate c' =>
    rw [ha]
    by_cases hc : c = c'
    · subst hc
      exact .inl (by simp [Effect.apply,Redis.invalidate])
    · simp only [Effect.apply,Redis.invalidate,Function.update_of_ne hc]
      exact h c
  | _ =>
    rw [ha]
    exact h c

/-! ### Who is in the room -/

/-- The user has a socket in the channel's room. -/
def World.Present (w : World) (u c : Uuid) : Prop := ∃ s ∈ w.sockets, s.user = u ∧ .channel c ∈ s.rooms

/-- The label takes the socket out of the channel's room. -/
def TakesOut (d : Server) (s : Socket) (c : Uuid) : Action → Prop
  | .run p ch => ∃ q, d.pool[p]? = some q ∧ (q.effect ch).takesOut s c
  | .env (.disconnect i) => s.id = i
  | _ => False

theorem Event.apply_present {f : Event} {s : Socket} {c : Uuid} (hs : s ∈ w.sockets)
    (hr : .channel c ∈ s.rooms) (hf : f ≠ .disconnect s.id) : (f.apply w).Present s.user c := by
  cases f with
  | connect u => exact ⟨s,List.mem_append_left _ hs,rfl,hr⟩
  | disconnect i =>
    exact ⟨s,List.mem_filter.mpr ⟨hs,decide_eq_true fun he => hf (by rw [he])⟩,rfl,hr⟩
  | expireMembers c' => exact ⟨s,hs,rfl,hr⟩
  | expireMessages c' => exact ⟨s,hs,rfl,hr⟩

/-- A step keeps a user present, unless it takes its socket out. -/
theorem World.Present.next {l : Action} {s : Socket} {c : Uuid} (hs : s ∈ d.world.sockets)
    (hr : .channel c ∈ s.rooms) (hl : ¬ TakesOut d s c l) (hn : (server x).next d l = some e) :
    e.world.Present s.user c := by
  cases l with
  | spawn q =>
    obtain rfl := Option.some.inj hn
    exact ⟨s,hs,rfl,hr⟩
  | run p ch =>
    obtain ⟨q,q',w',hq,hstep,rfl⟩ := (server x).next_run hn
    have hf : ¬ (q.effect ch).takesOut s c := fun hf => hl ⟨q,hq,hf⟩
    refine ⟨_,(Call.step_world hstep).socket_mem hs ?_,by simp,Effect.socket_stays hr hf⟩
    intro he
    rw [he] at hf
    exact hf rfl
  | env f =>
    obtain ⟨w',hw,rfl⟩ := (server x).next_env hn
    obtain rfl := Option.some.inj hw
    refine Event.apply_present hs hr ?_
    rintro rfl
    exact hl rfl

/-! ### Looking up -/

namespace Call

def changesMembers : Call → Bool
  | .create _ | .addMember _ | .removeMember _ => true
  | _ => false

/-- The channel a `send` will emit to, once it has its snapshot of the room. -/
def awaitsEmit : Call → Option Uuid
  | .send (.lookup m _ _ (some _)) => some m.channelId
  | .send (.emit m _ _ _) => some m.channelId
  | _ => none

/-- Whom the snapshot shows is still in the room. -/
def Sees (w : World) : Call → Prop
  | .send (.lookup m _ _ (some (some ids))) => ∀ u ∈ ids, w.Present u m.channelId
  | .send (.emit m _ _ (some ids)) => ∀ u ∈ ids, w.Present u m.channelId
  | _ => True

/-- The job whose write to the pending queues is lost in this step. -/
def loses (ch : Choice) : Call → Option MessageDeliveryJob
  | .send (.deliver d) => if ch.fail && ch.side && !d.queued then some d.job else none
  | .worker (.running d) => if ch.fail && ch.side && !ch.stall && !d.queued then some d.job else none
  | _ => none

end Call

/-- No membership call arrives; while a `send` is between its snapshot of the room and its
emit, who leaves the room has another socket in it; the write to the pending queues is
lost only if it is for nobody. -/
structure DeliversAll (d : Server) (l : Action) : Prop where
  arrives : Arrives d l
  membership : ∀ q, l = .spawn q → q.changesMembers = false
  stays : ∀ s ∈ d.world.sockets, ∀ c, .channel c ∈ s.rooms → TakesOut d s c l →
    d.Any (·.awaitsEmit = some c) →
      ∃ k ∈ d.world.sockets, k.user = s.user ∧ .channel c ∈ k.rooms ∧ ¬ TakesOut d k c l
  queues : ∀ (p : ℕ) ch q job, l = .run p ch → d.pool[p]? = some q → q.loses ch = some job →
    job.offlineUserIds = []

/-- What the lookups of the calls in progress have found is still right. -/
structure Looked (db : Db) (d : Server) : Prop where
  members : d.world.pg.db.members = db.members
  keys : KeysCover db d.world
  covers : ∀ q ∈ d.pool, q.Covers db
  sees : ∀ q ∈ d.pool, q.Sees d.world

theorem DeliversAll.present {l : Action} {u c : Uuid} (hl : DeliversAll d l)
    (hn : (server x).next d l = some e) (hany : d.Any (·.awaitsEmit = some c))
    (h : d.world.Present u c) : e.world.Present u c := by
  obtain ⟨s,hs,rfl,hr⟩ := h
  by_cases ht : TakesOut d s c l
  · obtain ⟨k,hk,hu,hkr,hkt⟩ := hl.stays s hs c hr ht hany
    rw [← hu]
    exact World.Present.next hk hkr hkt hn
  · exact World.Present.next hs hr ht hn

theorem DeliversAll.sees {l : Action} (hl : DeliversAll d l) (hn : (server x).next d l = some e)
    (hq : d.pool[p]? = some q) (h : q.Sees d.world) : q.Sees e.world := by
  unfold Call.Sees at h ⊢
  split
  · intro u hu
    exact hl.present hn ⟨p,_,hq,rfl⟩ (h u hu)
  · intro u hu
    exact hl.present hn ⟨p,_,hq,rfl⟩ (h u hu)
  · trivial

theorem Send.joinLookup_sees {m : MessagePayload} {i : Option ℕ} {g : GetMembers}
    {k : Option (Option (List Uuid))} (h : ∀ ids, k = some (some ids) → ∀ u ∈ ids, w.Present u m.channelId) :
    (Call.send (Send.joinLookup m i g k)).Sees w := by
  unfold Send.joinLookup
  split
  · trivial
  · rename_i connected
    cases connected with
    | none => trivial
    | some ids => exact h ids rfl
  · rcases k with _ | _ | ids
    · trivial
    · trivial
    · exact h ids rfl

theorem Call.sees_step (h : q.step x p ch w = some (q',w')) (hq : q.Sees w') : q'.Sees w' := by
  cases q with
  | send q =>
    obtain ⟨s,hs,rfl⟩ := of_step h
    cases Send.edge hs with
    | snapshot hside hw =>
      subst hw
      refine Send.joinLookup_sees fun ids hids u hu => ?_
      split at hids
      · simp at hids
      · obtain rfl := Option.some.inj (Option.some.inj hids)
        simp only [Send.connectedUserIds,List.mem_dedup,List.mem_map,World.inRoom,List.mem_filter,
          decide_eq_true_eq] at hu
        obtain ⟨k,⟨hk,hr⟩,hu⟩ := hu
        exact ⟨k,hk,hu,hr⟩
    | members hside hg =>
      refine Send.joinLookup_sees fun ids hids => ?_
      subst hids
      exact hq
    | _ => trivial
  | _ =>
    obtain ⟨s,hs,rfl⟩ := of_step h
    trivial

theorem Call.Initial.covers {q : Call} (h : q.Initial) (hc : q.changesMembers = false) :
    q.Covers db ∧ q.Sees w := by
  cases h with
  | create input => simp [Call.changesMembers] at hc
  | addMember a => simp [Call.changesMembers] at hc
  | removeMember a => simp [Call.changesMembers] at hc
  | getMembers c => exact ⟨⟨c,rfl⟩,trivial⟩
  | _ => exact ⟨trivial,trivial⟩

/-- Without membership calls the members stay. -/
theorem Call.Commits.members {db' : Db} (h : q.Commits w.pg.db db') (hq : q.Covers db) :
    db'.members = w.pg.db.members := by
  rcases h.cases with ⟨_,_,_,h⟩ | ⟨_,_,_,h⟩ | ⟨_,_,_,rfl,_⟩ | ⟨_,_,_,rfl,_⟩ | ⟨_,_,_,rfl,_⟩
  · exact h.members
  · exact h.members
  · exact hq.elim
  · exact hq.elim
  · exact hq.elim

theorem Looked.next {l : Action} (h : Looked db d) (hv : (outline x).Valid d) (hl : DeliversAll d l)
    (hn : (server x).next d l = some e) : Looked db e := by
  cases l with
  | spawn q =>
    obtain rfl := Option.some.inj hn
    have hnew : q.Covers db ∧ q.Sees d.world := Call.Initial.covers hl.arrives (hl.membership q rfl)
    refine ⟨h.members,h.keys,fun r hr => ?_,fun r hr => ?_⟩ <;>
      rcases List.mem_append.mp hr with hr | hr
    · exact h.covers r hr
    · rw [List.mem_singleton.mp hr]
      exact hnew.1
    · exact h.sees r hr
    · rw [List.mem_singleton.mp hr]
      exact hnew.2
  | run p ch =>
    have hsees : ∀ (r : ℕ) (s : Call), d.pool[r]? = some s → s.Sees e.world := fun r s hr =>
      hl.sees hn hr (h.sees s (List.mem_of_getElem? hr))
    have hmem : e.world.pg.db.members = d.world.pg.db.members := by
      rcases step_refines hv hn with he | ⟨_,r,_,_,hr,hc⟩
      · rw [he]
      · exact hc.members (h.covers r (List.mem_of_getElem? hr))
    obtain ⟨q,q',w',hq,hs,rfl⟩ := (server x).next_run hn
    have hcov := h.covers q (List.mem_of_getElem? hq)
    refine ⟨hmem.trans h.members,?_,fun r hr => ?_,fun r hr => ?_⟩
    · exact h.keys.next (Call.step_world hs) fun c ms hf => Call.covers_effect hcov hf
    · rcases List.mem_or_eq_of_mem_set hr with hr | rfl
      · exact h.covers r hr
      · exact Call.covers_step hs h.keys h.members hcov
    · obtain ⟨i,hi⟩ := List.mem_iff_getElem?.mp hr
      rcases pool_set hi with ⟨_,rfl⟩ | ⟨_,hi⟩
      · exact Call.sees_step hs (hsees p q hq)
      · exact hsees i r hi
  | env f =>
    have hsees : ∀ (r : ℕ) (s : Call), d.pool[r]? = some s → s.Sees e.world := fun r s hr =>
      hl.sees hn hr (h.sees s (List.mem_of_getElem? hr))
    obtain ⟨w',hw,rfl⟩ := (server x).next_env hn
    obtain rfl := Option.some.inj hw
    refine ⟨?_,fun c => ?_,h.covers,fun r hr => ?_⟩
    · rw [Event.apply_pg]
      exact h.members
    · rcases f.channelMembers d.world c with he | he
      · rw [he]
        exact h.keys c
      · exact .inl he
    · obtain ⟨i,hi⟩ := List.mem_iff_getElem?.mp hr
      exact hsees i r hi

theorem Reach.looked (hw : Start w) (h₀ : ∀ c, w.redis.channelMembers c = [])
    (h : Reach x DeliversAll w d) : Looked w.pg.db d := by
  refine h.invariant ⟨rfl,fun c => .inl (h₀ c),by simp,by simp⟩ fun a l b hr ha hl hn => ?_
  exact ha.next (Reach.valid (fun _ _ hl => hl.arrives) hw hr) hl hn

/-! ### Queueing -/

/-- The user has the message in its pending queue or has fetched it. -/
def World.Reached (w : World) (u : Uuid) (m : MessagePayload) : Prop :=
  (∃ score, (score,m) ∈ w.redis.pending u) ∨ (u,m) ∈ w.popped

/-- The job will queue message `m` for user `u`. -/
def MessageDeliveryJob.Brings (u : Uuid) (m : MessagePayload) (job : MessageDeliveryJob) : Prop :=
  job.message = m ∧ u ∈ job.offlineUserIds

def Send.Brings (u : Uuid) (m : MessagePayload) : Send → Prop
  | .cache k ms connected => (Send.deliveryJob k ms connected).Brings u m
  | .enqueue job => job.Brings u m
  | .deliver d => d.job.Brings u m ∧ d.queued = false
  | _ => False

def Worker.Brings (u : Uuid) (m : MessagePayload) : Worker → Prop
  | .running d => d.job.Brings u m ∧ d.queued = false
  | _ => False

/-- The message has reached the user, or the `send` `p`, a queued job or a worker will
bring it. -/
inductive Underway (p : ℕ) (u : Uuid) (m : MessagePayload) (d : Server) : Prop
  | reached (h : d.world.Reached u m)
  | sending (q : Send) (hq : d.pool[p]? = some (.send q)) (h : q.Brings u m)
  | queued (job : MessageDeliveryJob) (hj : job ∈ d.world.queue) (h : job.Brings u m)
  | working (r : ℕ) (q : Worker) (hq : d.pool[r]? = some (.worker q)) (h : q.Brings u m)

variable {u : Uuid} {m : MessagePayload}

theorem Redis.mem_zAdd_of_mem {a b : ℕ × MessagePayload} {set : List (ℕ × MessagePayload)}
    (h : a ∈ set) : ∃ score, (score,a.2) ∈ Redis.zAdd b set := by
  by_cases he : a.2 = b.2
  · exact ⟨b.1,(List.mem_orderedInsert _).mpr (.inl (by rw [he]))⟩
  · exact ⟨a.1,(List.mem_orderedInsert _).mpr (.inr (List.mem_filter.mpr ⟨h,by simpa using he⟩))⟩

theorem Effect.apply_reached {f : Effect} (h : w.Reached u m) : (f.apply w).Reached u m := by
  rcases h with ⟨score,h⟩ | h
  · cases f with
    | setMembers c ms =>
      refine .inl ⟨score,?_⟩
      simp only [Effect.apply,Redis.setMembers]
      split <;> exact h
    | addPending ids n k =>
      simp only [World.Reached,Effect.apply,Redis.addPendingMessage]
      split
      · exact .inl (Redis.mem_zAdd_of_mem h)
      · exact .inl ⟨score,h⟩
    | removePending v raw =>
      by_cases hv : u = v ∧ m ∈ raw
      · obtain ⟨rfl,hm⟩ := hv
        exact .inr (List.mem_append_right _ (List.mem_map_of_mem hm))
      · refine .inl ⟨score,?_⟩
        simp only [Effect.apply,Redis.removePending,Function.update_apply]
        split
        · rename_i hu
          subst hu
          exact List.mem_filter.mpr ⟨h,by simpa using fun hm => hv ⟨rfl,hm⟩⟩
        · exact h
    | _ => exact .inl ⟨score,h⟩
  · cases f with
    | removePending v raw => exact .inr (List.mem_append_left _ h)
    | _ => exact .inr h

theorem Delivery.bring {a b : Delivery} (h : a.step ch w = some (b,w')) (hb : a.job.Brings u m)
    (hq : a.queued = false) (hf : ¬(ch.fail = true ∧ ch.side = true)) :
    w'.Reached u m ∨ b.job.Brings u m ∧ b.queued = false := by
  unfold Delivery.step at h
  split_ifs at h with hside hqueued hfail hcounted hfail
  · exact absurd ⟨hfail,hside⟩ hf
  · obtain ⟨_,rfl⟩ := Prod.mk.inj (Option.some.inj h)
    obtain ⟨rfl,hu⟩ := hb
    refine .inl (.inl ⟨pendingScore ch a.job.message,?_⟩)
    simp only [Redis.addPendingMessage,if_pos hu]
    exact (List.mem_orderedInsert _).mpr (.inl rfl)
  · obtain ⟨rfl,_⟩ := Prod.mk.inj (Option.some.inj h)
    exact .inr ⟨hb,hq⟩
  · obtain ⟨rfl,_⟩ := Prod.mk.inj (Option.some.inj h)
    exact .inr ⟨hb,hq⟩

/-- The `send` hands the message over. -/
theorem Send.bring {q q' : Send} (h : q.step x p ch w = some (q',w')) (hb : q.Brings u m)
    (hl : ∀ job, (Call.send q).loses ch = some job → job.offlineUserIds = []) :
    w'.Reached u m ∨ q'.Brings u m ∨ ∃ job ∈ w'.queue, job.Brings u m := by
  have hlost : ∀ {a : Delivery}, q = .deliver a → a.job.Brings u m → a.queued = false →
      ¬(ch.fail = true ∧ ch.side = true) := by
    rintro a rfl ⟨_,hu⟩ hq ⟨hf,hs⟩
    rw [hl a.job (by simp [Call.loses,hf,hs,hq])] at hu
    simp at hu
  cases Send.edge h with
  | cached hrec => exact .inr (.inl hb)
  | @alone m' ms k hrec =>
    have hu : u ∈ (deliveryJob m' ms k).recipientIds := (List.mem_filter.mp hb.2).1
    rw [hrec] at hu
    simp at hu
  | inline hf => exact .inr (.inl ⟨hb,rfl⟩)
  | @enqueued job hf =>
    simp only [Send.step,hf,Bool.false_eq_true,if_false] at h
    obtain ⟨_,rfl⟩ := Prod.mk.inj (Option.some.inj h)
    exact .inr (.inr ⟨job,by simp,hb⟩)
  | delivering hd hfin =>
    rcases Delivery.bring hd hb.1 hb.2 (hlost rfl hb.1 hb.2) with hr | hr
    · exact .inl hr
    · exact .inr (.inl hr)
  | delivered hd hfin =>
    rcases Delivery.bring hd hb.1 hb.2 (hlost rfl hb.1 hb.2) with hr | hr
    · exact .inl hr
    · simp [Delivery.finished,hr.2] at hfin
  | abort hq err => cases q <;> first | exact hb.elim | simp [Send.inTransaction] at hq
  | _ => exact hb.elim

/-- A worker queues the message or gives the job back. -/
theorem Worker.bring {q q' : Worker} (h : q.step ch w = some (q',w')) (hb : q.Brings u m)
    (hl : ∀ job, (Call.worker q).loses ch = some job → job.offlineUserIds = []) :
    w'.Reached u m ∨ q'.Brings u m ∨ ∃ job ∈ w'.queue, job.Brings u m := by
  cases q with
  | running a =>
    simp only [Worker.step] at h
    split at h
    · obtain ⟨_,rfl⟩ := Prod.mk.inj (Option.some.inj h)
      exact .inr (.inr ⟨a.job,by simp,hb.1⟩)
    · rename_i hstall
      obtain ⟨⟨b,v⟩,hd,he⟩ := Option.map_eq_some_iff.mp h
      obtain ⟨rfl,rfl⟩ := Prod.mk.inj he
      have hlost : ¬(ch.fail = true ∧ ch.side = true) := by
        rintro ⟨hf,hs⟩
        have hu := hb.1.2
        rw [hl a.job (by simp [Call.loses,hf,hs,hb.2,hstall])] at hu
        simp at hu
      rcases Delivery.bring hd hb.1 hb.2 hlost with hr | hr
      · exact .inl hr
      · refine .inr (.inl ?_)
        simp only [Delivery.finished,hr.2,Bool.false_and,Bool.false_eq_true,if_false]
        exact hr
  | _ => exact hb.elim

/-- A queued job stays in the queue until a worker takes it. -/
theorem Call.queue_step {job : MessageDeliveryJob} (h : q.step x p ch w = some (q',w')) (hj : job ∈ w.queue) :
    job ∈ w'.queue ∨ q' = .worker (.running (.start job)) := by
  have hw := Call.step_world h
  have hi := q.issues ch
  rw [AfterStep] at hw
  generalize q.effect ch = f at hw hi
  cases hi with
  | take =>
    obtain ⟨s,hm,rfl⟩ := of_step h
    simp only [Worker.step] at hm
    split at hm
    · simp at hm
    · rename_i job' hjob
      obtain ⟨rfl,rfl⟩ := Prod.mk.inj (Option.some.inj hm)
      by_cases he : job = job'
      · exact .inr (by rw [he])
      · refine .inl ?_
        obtain ⟨i,hi⟩ := List.mem_iff_getElem?.mp hj
        refine List.mem_eraseIdx_iff_getElem?.mpr ⟨i,?_,hi⟩
        rintro rfl
        exact he (Option.some.inj (hi.symm.trans hjob))
  | enqueue job' =>
    rw [hw]
    exact .inl (List.mem_append_left _ hj)
  | requeue d =>
    rw [hw]
    exact .inl (List.mem_append_left _ hj)
  | _ =>
    rw [hw]
    exact .inl hj

theorem Underway.next {l : Action} (h : Underway p u m d) (hl : DeliversAll d l)
    (hn : (server x).next d l = some e) : Underway p u m e := by
  cases l with
  | spawn q =>
    obtain rfl := Option.some.inj hn
    have hold : ∀ {r : ℕ} {s : Call}, d.pool[r]? = some s → (d.pool++[q])[r]? = some s := fun hr => by
      rw [List.getElem?_append_left (List.getElem?_eq_some_iff.mp hr).1]
      exact hr
    rcases h with h | ⟨s,hs,h⟩ | ⟨job,hj,h⟩ | ⟨r,s,hs,h⟩
    · exact .reached h
    · exact .sending s (hold hs) h
    · exact .queued job hj h
    · exact .working r s (hold hs) h
  | run r ch =>
    obtain ⟨q,q',w',hq,hs,rfl⟩ := (server x).next_run hn
    have hself := List.getElem?_set_self (a := q') (List.getElem?_eq_some_iff.mp hq).1
    rcases h with h | ⟨s,hp,h⟩ | ⟨job,hj,h⟩ | ⟨i,s,hi,h⟩
    · have hw := Call.step_world hs
      rw [AfterStep] at hw
      refine .reached ?_
      rw [hw]
      exact Effect.apply_reached h
    · by_cases hrp : r = p
      · subst hrp
        obtain rfl := Option.some.inj (hq.symm.trans hp)
        obtain ⟨s',hm,rfl⟩ := Call.of_step hs
        rcases Send.bring hm h fun job => hl.queues r ch _ job rfl hq with hr | hb | ⟨job,hj,hb⟩
        · exact .reached hr
        · exact .sending s' hself hb
        · exact .queued job hj hb
      · exact .sending s (by rw [List.getElem?_set_ne hrp]; exact hp) h
    · rcases Call.queue_step hs hj with hj | rfl
      · exact .queued job hj h
      · exact .working r _ hself ⟨h,rfl⟩
    · by_cases hri : r = i
      · subst hri
        obtain rfl := Option.some.inj (hq.symm.trans hi)
        obtain ⟨s',hm,rfl⟩ := Call.of_step hs
        rcases Worker.bring hm h fun job => hl.queues r ch _ job rfl hq with hr | hb | ⟨job,hj,hb⟩
        · exact .reached hr
        · exact .working r s' hself hb
        · exact .queued job hj hb
      · exact .working i s (by rw [List.getElem?_set_ne hri]; exact hi) h
  | env f =>
    obtain ⟨w',hw,rfl⟩ := (server x).next_env hn
    obtain rfl := Option.some.inj hw
    rcases h with h | ⟨s,hp,h⟩ | ⟨job,hj,h⟩ | ⟨i,s,hi,h⟩
    · exact .reached (by cases f <;> exact h)
    · exact .sending s hp h
    · exact .queued job (by cases f <;> exact hj) h
    · exact .working i s hi h

/-- No job of the message is queued or running. -/
def JobsDone (m : MessagePayload) (d : Server) : Prop :=
  (∀ job ∈ d.world.queue, job.message ≠ m) ∧
  ∀ (r : ℕ) (a : Delivery), d.pool[r]? = some (.worker (.running a)) → a.job.message ≠ m

/-- In every run that delivers all, a `send` that has emitted its message and come to its end,
with no job of the message left, has reached every other member: the member had a socket in
the room when the message was emitted, or has the message in its pending queue or has
fetched it from there. -/
theorem message_reaches_members (hw : Start w) (h₀ : ∀ c, w.redis.channelMembers c = [])
    (h : Reach x DeliversAll w d) {i : Option ℕ} {ms : List Uuid} {k : Option (List Uuid)}
    (hp : d.pool[p]? = some (.send (.emit m i ms k))) {d' : Server}
    (hn : (server x).next d (.run p ch) = some d') (h' : Run (server x) DeliversAll d' e)
    (hdone : e.pool[p]? = some (.send (.done m))) (hjobs : JobsDone m e)
    (hu : (d.world.pg.db.membership? u m.channelId).isSome = true) (hne : u ≠ m.senderId) :
    (∃ s ∈ d.world.sockets, s.user = u ∧ .channel m.channelId ∈ s.rooms) ∨
    (∃ score, (score,m) ∈ e.world.redis.pending u) ∨ (u,m) ∈ e.world.popped := by
  have hlook := h.looked hw h₀
  have hmem := List.mem_of_getElem? hp
  by_cases hon : ∃ ids, k = some ids ∧ u ∈ ids
  · obtain ⟨ids,rfl,hids⟩ := hon
    exact .inl (hlook.sees _ hmem u hids)
  · right
    have hms : u ∈ ms := by
      refine hlook.covers _ hmem u ((Db.hasMember_congr hlook.members u _).mp ?_)
      exact (Db.membership?_isSome _ u _).mp hu
    have hoff : (Send.deliveryJob m ms k).Brings u m := by
      refine ⟨rfl,List.mem_filter.mpr ⟨List.mem_filter.mpr ⟨hms,by simpa using hne⟩,?_⟩⟩
      rcases k with _ | ids
      · simp
      · have hnot : u ∉ ids := fun hids => hon ⟨ids,rfl,hids⟩
        simpa using hnot
    obtain ⟨q,q',w',hq,hs,rfl⟩ := (server x).next_run hn
    obtain rfl := Option.some.inj (hq.symm.trans hp)
    obtain ⟨rfl,_⟩ := Prod.mk.inj (Option.some.inj hs)
    have hway : Underway p u m e := by
      refine h'.invariant (I := Underway p u m) ?_ fun a l b _ ha hl hn => ha.next hl hn
      exact .sending _ (List.getElem?_set_self (List.getElem?_eq_some_iff.mp hq).1) hoff
    rcases hway with h | ⟨s,hs,h⟩ | ⟨job,hj,h⟩ | ⟨r,s,hs,h⟩
    · exact h
    · obtain rfl := Call.send.inj (Option.some.inj (hs.symm.trans hdone))
      exact h.elim
    · exact absurd h.1 (hjobs.1 job hj)
    · cases s with
      | running a => exact absurd h.1.1 (hjobs.2 r a hs)
      | _ => exact h.elim

/-- The condition as a check that also refuses everybody who leaves and every lost write. -/
def deliversAll (d : Server) (l : Action) : Bool :=
  arrives d l && match l with
    | .spawn q => !q.changesMembers
    | .run p ch =>
      (d.pool[p]?).all fun q => (q.loses ch).isNone &&
        match q.effect ch with
        | .disconnect _ | .leave _ _ _ | .socketsLeave _ _ => false
        | _ => true
    | .env (.disconnect _) => false
    | .env _ => true

theorem deliversAll_sound (d : Server) (l : Action) (h : deliversAll d l = true) : DeliversAll d l := by
  obtain ⟨harr,hrun⟩ := Bool.and_eq_true_iff.mp h
  have hstay : ∀ s c, ¬ TakesOut d s c l := by
    intro s c ht
    cases l with
    | spawn q => exact ht
    | run p ch =>
      obtain ⟨q,hq,ht⟩ := ht
      simp only [hq,Option.all_some,Bool.and_eq_true] at hrun
      revert ht hrun
      cases q.effect ch <;> simp [Effect.takesOut]
    | env f => cases f <;> simp_all [TakesOut]
  refine ⟨arrives_sound d l harr,?_,fun s _ c _ ht => absurd ht (hstay s c),?_⟩
  · rintro q rfl
    simpa using hrun
  · rintro p ch q job rfl hp hlose
    simp [hp,hlose] at hrun

/-- A `send` up to its emit. -/
def beforeEmit (p : ℕ) (u c id : Uuid) (text : String) : List Action :=
  sending p u c id text++.run p otherSide::steps p 3

theorem message_reaches_members_offline :
    ∃ d d' e, Reach plain DeliversAll smallWorld d ∧
      (server plain).next d (.run 0 calm) = some d' ∧ Run (server plain) DeliversAll d' e ∧
      d.world.sockets = [] ∧ JobsDone (posted 1 50 "ada" 1 "hi") e ∧
      ((∃ score, (score,posted 1 50 "ada" 1 "hi") ∈ e.world.redis.pending 2) ∨
        (2,posted 1 50 "ada" 1 "hi") ∈ e.world.popped) := by
  obtain ⟨d,d',e,hd,hn,he,hf⟩ := Run.exists_of_exec_step (S := server plain) (c := ⟨smallWorld,[]⟩)
    deliversAll_sound (beforeEmit 0 1 10 50 "hi") (.run 0 calm) (steps 0 2++delivering 1)
    (f := fun d e => (d.pool[0]?,d.world.sockets,(d.world.pg.db.membership? 2 10).isSome,e.pool,e.world.queue))
    (v := (some (.send (.emit (posted 1 50 "ada" 1 "hi") none [1,2] (some []))),[],true,
      [.send (.done (posted 1 50 "ada" 1 "hi")),
        .worker (.done ⟨⟨posted 1 50 "ada" 1 "hi",[2],[2]⟩,true,true⟩)],[])) (by decide +kernel)
  simp only [Prod.mk.injEq] at hf
  obtain ⟨hp,hsockets,hmem,hpool,hqueue⟩ := hf
  have hjobs : JobsDone (posted 1 50 "ada" 1 "hi") e := by
    refine ⟨by simp [hqueue],fun r a hr => ?_⟩
    have hin := List.mem_of_getElem? hr
    simp [hpool] at hin
  refine ⟨d,d',e,hd,hn,he,hsockets,hjobs,?_⟩
  refine (message_reaches_members smallWorld_start (fun _ => rfl) hd hp hn he (by simp [hpool]) hjobs
    (u := 2) hmem (by decide)).resolve_left ?_
  simp [hsockets]

/-- The recipient's only socket disconnects between the snapshot of the room and the emit. -/
def disconnectedBeforeEmit : List Action :=
  .env (.connect 2)::.spawn (.connection (.channels 0 2))::steps 0 4++
    sending 1 1 10 50 "hi"++.run 1 otherSide::.env (.disconnect 0)::steps 1 3

/-- The `send` and its job are over; the recipient had no socket in the room at the emit and
has nothing pending. -/
theorem message_lost :
    ∃ d d' e, Reach plain Arrives smallWorld d ∧
      d.pool[1]? = some (.send (.emit (posted 1 50 "ada" 1 "hi") none [1,2] (some [2]))) ∧
      (server plain).next d (.run 1 calm) = some d' ∧ Run (server plain) Arrives d' e ∧
      e.pool[1]? = some (.send (.done (posted 1 50 "ada" 1 "hi"))) ∧
      JobsDone (posted 1 50 "ada" 1 "hi") e ∧ (d.world.pg.db.membership? 2 10).isSome = true ∧
      ¬((∃ s ∈ d.world.sockets, s.user = 2 ∧ .channel 10 ∈ s.rooms) ∨
        (∃ score, (score,posted 1 50 "ada" 1 "hi") ∈ e.world.redis.pending 2) ∨
        (2,posted 1 50 "ada" 1 "hi") ∈ e.world.popped) := by
  obtain ⟨d,d',e,hd,hn,he,hf⟩ := Run.exists_of_exec_step (S := server plain) (c := ⟨smallWorld,[]⟩)
    arrives_sound disconnectedBeforeEmit (.run 1 calm) (steps 1 2++delivering 2)
    (f := fun d e => (d.pool[1]?,d.world.sockets.isEmpty && (d.world.pg.db.membership? 2 10).isSome,e.pool,
      e.world.queue,(e.world.redis.pending 2).isEmpty && e.world.popped.isEmpty))
    (v := (some (.send (.emit (posted 1 50 "ada" 1 "hi") none [1,2] (some [2]))),true,
      [.connection (.done 0 2),.send (.done (posted 1 50 "ada" 1 "hi")),
        .worker (.done ⟨⟨posted 1 50 "ada" 1 "hi",[2],[]⟩,true,true⟩)],[],true)) (by decide +kernel)
  simp only [Prod.mk.injEq,Bool.and_eq_true,List.isEmpty_iff] at hf
  obtain ⟨hp,⟨hsockets,hmem⟩,hpool,hqueue,hpend,hpop⟩ := hf
  refine ⟨d,d',e,hd,hp,hn,he,by simp [hpool],⟨by simp [hqueue],fun r a hr => ?_⟩,hmem,
    by simp [hsockets,hpend,hpop]⟩
  have hin := List.mem_of_getElem? hr
  simp [hpool] at hin

end ZevraServer
