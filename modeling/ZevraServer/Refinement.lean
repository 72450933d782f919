import ZevraServer.SendOutline
import ZevraServer.DeleteOutline
import ZevraServer.ChannelOutlines

/-!
# The server refines the atomic changes

The outlines of the single calls form one outline of the server: in every reachable
configuration the assertion of every call holds at its control state, and every step
leaves the committed tables alone or is the atomic change its control state commits.
A property of the tables that the atomic changes keep is therefore an invariant of
the interleaved server.
-/

namespace ZevraServer

open ReadCommitted Interleaving

variable {x : Externals} {p : ℕ} {pg pg' : Postgres} {ch : Choice} {w w' : World}

/-! ### Calls that leave Postgres alone -/

theorem Worker.step_pg {q q' : Worker} (h : q.step ch w = some (q',w')) : w'.pg = w.pg := by
  cases q with
  | take =>
    simp only [Worker.step] at h
    split at h
    · simp at h
    · obtain ⟨_,rfl⟩ := Prod.mk.inj (Option.some.inj h)
      rfl
  | running d =>
    simp only [Worker.step] at h
    split at h
    · obtain ⟨_,rfl⟩ := Prod.mk.inj (Option.some.inj h)
      rfl
    · obtain ⟨⟨d',v⟩,hd,he⟩ := Option.map_eq_some_iff.mp h
      obtain ⟨_,rfl⟩ := Prod.mk.inj he
      exact Delivery.step_pg hd
  | done d => simp [Worker.step] at h
  | stalled => simp [Worker.step] at h

theorem GetPending.step_pg {q q' : GetPending} (h : q.step ch w = some (q',w')) : w'.pg = w.pg := by
  cases q with
  | range u =>
    simp only [GetPending.step] at h
    split at h <;> obtain ⟨_,rfl⟩ := Prod.mk.inj (Option.some.inj h) <;> rfl
  | remove u raw =>
    simp only [GetPending.step] at h
    split at h <;> obtain ⟨_,rfl⟩ := Prod.mk.inj (Option.some.inj h) <;> rfl
  | done ms n => simp [GetPending.step] at h

theorem GetMessages.step_pg {q q' : GetMessages} (h : q.step ch w = some (q',w')) : w'.pg = w.pg := by
  cases q with
  | invalidate a =>
    obtain ⟨_,rfl⟩ := Prod.mk.inj (Option.some.inj h)
    split <;> rfl
  | done a page => simp [GetMessages.step] at h
  | failed err => simp [GetMessages.step] at h
  | _ =>
    simp only [GetMessages.step] at h
    split_ifs at h <;> obtain ⟨_,rfl⟩ := Prod.mk.inj (Option.some.inj h) <;> rfl

theorem GetInbox.step_world {q q' : GetInbox} (h : q.step ch w = some (q',w')) : w' = w := by
  cases q with
  | memberships u =>
    simp only [GetInbox.step] at h
    split at h <;> obtain ⟨_,rfl⟩ := Prod.mk.inj (Option.some.inj h) <;> rfl
  | gather u read channels peers unread =>
    simp only [GetInbox.step] at h
    split at h <;> split_ifs at h <;> obtain ⟨_,rfl⟩ := Prod.mk.inj (Option.some.inj h) <;> rfl
  | done u items => simp [GetInbox.step] at h
  | failed err => simp [GetInbox.step] at h

theorem Connection.step_pg {q q' : Connection} (h : q.step ch w = some (q',w')) : w'.pg = w.pg := by
  cases q with
  | done s u => simp [Connection.step] at h
  | rejected => simp [Connection.step] at h
  | _ =>
    simp only [Connection.step] at h
    try split at h
    all_goals
      obtain ⟨_,rfl⟩ := Prod.mk.inj (Option.some.inj h)
      rfl

theorem RoomCall.step_pg {q q' : RoomCall} (h : q.step ch w = some (q',w')) : w'.pg = w.pg := by
  cases q with
  | member s u c joins call =>
    obtain ⟨⟨q',v⟩,hq,he⟩ := Option.map_eq_some_iff.mp h
    obtain ⟨_,rfl⟩ := Prod.mk.inj he
    exact IsMember.step_pg hq
  | move s u c joins =>
    obtain ⟨_,rfl⟩ := Prod.mk.inj (Option.some.inj h)
    rfl
  | done s u c joins => simp [RoomCall.step] at h
  | failed code => simp [RoomCall.step] at h

/-! ### The outline of the server -/

namespace Call

/-- The assertion of a call at its control state. -/
def Assert (x : Externals) (p : ℕ) (pg : Postgres) : Call → Prop
  | .send q => q.Assert p pg
  | .deleteMessage q => q.Assert p pg
  | .create q => q.Assert x p pg
  | .addMember q => q.Assert p pg
  | .removeMember q => q.Assert p pg
  | _ => pg.Idle p

/-- The change of the tables a control state commits. -/
def Commits : Call → Db → Db → Prop
  | .send q => q.Commits
  | .deleteMessage q => q.Commits
  | .create q => q.Commits
  | .addMember q => q.Commits
  | .removeMember q => q.Commits
  | _ => fun _ _ => False

/-- The five control states that commit. -/
theorem Commits.cases {q : Call} {d e : Db} (h : q.Commits d e) :
    (∃ a msg, q = .send (.commit a msg) ∧ Sent msg d e) ∨
    (∃ m c, q = .deleteMessage (.commit m c) ∧ Deleted m c d e) ∨
    (∃ a channel ids, q = .create (.commit a (some channel) true) ∧ Created a channel.id ids d e) ∨
    (∃ a id now, q = .addMember (.insert a) ∧
      Added (newMembership id a.newUserId a.channelId (a.role.getD .member) now) d e) ∨
    ∃ a promoted o, q = .removeMember (.commit a promoted) ∧
      Removed a.targetUserId a.channelId o d e := by
  cases q with
  | send q =>
    cases q with
    | commit a msg => exact .inl ⟨a,msg,rfl,h⟩
    | _ => exact h.elim
  | deleteMessage q =>
    cases q with
    | commit m c => exact .inr (.inl ⟨m,c,rfl,h⟩)
    | _ => exact h.elim
  | create q =>
    cases q with
    | commit a channel created =>
      rcases channel with _ | channel
      · exact h.elim
      · cases created with
        | false => exact h.elim
        | true =>
          obtain ⟨ids,h⟩ := h
          exact .inr (.inr (.inl ⟨a,channel,ids,rfl,h⟩))
    | _ => exact h.elim
  | addMember q =>
    cases q with
    | insert a =>
      obtain ⟨id,now,h⟩ := h
      exact .inr (.inr (.inr (.inl ⟨a,id,now,rfl,h⟩)))
    | _ => exact h.elim
  | removeMember q =>
    cases q with
    | commit a promoted =>
      obtain ⟨o,h⟩ := h
      exact .inr (.inr (.inr (.inr ⟨a,promoted,o,rfl,h⟩)))
    | _ => exact h.elim
  | _ => exact h.elim

theorem Commits.transition {q : Call} {d e : Db} (h : q.Commits d e) : Transition d e := by
  rcases h.cases with ⟨_,msg,_,h⟩ | ⟨m,c,_,h⟩ | ⟨a,channel,ids,_,h⟩ | ⟨_,_,_,_,h⟩ | ⟨_,_,o,_,h⟩
  · exact .sent msg h
  · exact .deleted m c h
  · exact .created a channel.id ids h
  · exact .added _ h
  · exact .removed _ _ o h

theorem Assert.stable {q : Call} (h : q.Assert x p pg) (hr : (discipline x).Rely p pg pg') :
    q.Assert x p pg' := by
  cases q with
  | send q => exact Send.Assert.stable h hr
  | deleteMessage q => exact DeleteMessage.Assert.stable h hr
  | create q => exact Create.Assert.stable h hr
  | addMember q => exact AddMember.Assert.stable h hr
  | removeMember q => exact RemoveMember.Assert.stable h hr
  | _ => exact hr.idle h

theorem Initial.assert {q : Call} (h : q.Initial) (hi : pg.Idle p) : q.Assert x p pg := by
  cases h <;> exact hi

/-- A step that leaves Postgres alone. -/
theorem own_idle {T : Db → Db → Prop} (hs : Sane w.pg) (h : w.pg.Idle p) (hpg : w'.pg = w.pg) :
    Advance x p T w.pg w'.pg ∧ w'.pg.Idle p := by
  rw [hpg]
  exact ⟨.refl hs,h⟩

theorem own {q q' : Call} (hs : Sane w.pg) (h : q.Assert x p w.pg)
    (hq : q.step x p ch w = some (q',w')) :
    Advance x p q.Commits w.pg w'.pg ∧ q'.Assert x p w'.pg := by
  cases q with
  | send q =>
    obtain ⟨s,hm,rfl⟩ := of_step hq
    exact Send.own hs h hm
  | deleteMessage q =>
    obtain ⟨s,hm,rfl⟩ := of_step hq
    exact DeleteMessage.own hs h hm
  | create q =>
    obtain ⟨s,hm,rfl⟩ := of_step hq
    exact Create.own hs h hm
  | addMember q =>
    obtain ⟨s,hm,rfl⟩ := of_step hq
    exact AddMember.own hs h hm
  | removeMember q =>
    obtain ⟨s,hm,rfl⟩ := of_step hq
    exact RemoveMember.own hs h hm
  | worker q =>
    obtain ⟨s,hm,rfl⟩ := of_step hq
    exact own_idle hs h (Worker.step_pg hm)
  | getPending q =>
    obtain ⟨s,hm,rfl⟩ := of_step hq
    exact own_idle hs h (GetPending.step_pg hm)
  | getMessages q =>
    obtain ⟨s,hm,rfl⟩ := of_step hq
    exact own_idle hs h (GetMessages.step_pg hm)
  | getInbox q =>
    obtain ⟨s,hm,rfl⟩ := of_step hq
    exact own_idle hs h (by rw [GetInbox.step_world hm])
  | getMembers q =>
    obtain ⟨s,hm,rfl⟩ := of_step hq
    exact own_idle hs h (GetMembers.step_pg hm)
  | isMember q =>
    obtain ⟨s,hm,rfl⟩ := of_step hq
    exact own_idle hs h (IsMember.step_pg hm)
  | connection q =>
    obtain ⟨s,hm,rfl⟩ := of_step hq
    exact own_idle hs h (Connection.step_pg hm)
  | room q =>
    obtain ⟨s,hm,rfl⟩ := of_step hq
    exact own_idle hs h (RoomCall.step_pg hm)

end Call

theorem Event.apply_pg (e : Event) (w : World) : (e.apply w).pg = w.pg := by
  cases e <;> rfl

def outline (x : Externals) : Outline (server x) Arrives where
  inv w := Sane w.pg
  rely p w w' := (discipline x).Rely p w.pg w'.pg
  idle p w := w.pg.Idle p
  holds p q w := q.Assert x p w.pg
  spawn hq _ hi := Call.Initial.assert hq hi
  own _ hs h hq := by
    obtain ⟨hadv,hass⟩ := Call.own hs h hq
    exact ⟨hadv.sane (fun _ _ => Call.Commits.transition) hs,hass,hadv.guarantee⟩
  env {_ e _} _ hs he := by
    obtain rfl := Option.some.inj he
    rw [Event.apply_pg]
    exact ⟨hs,fun r => Discipline.Rely.refl r _⟩
  stable _ _ hr h := h.stable hr
  idle_stable hr hi := hr.idle hi

/-! ### Runs -/

/-- A world in which no transaction is open and the tables meet the schema's
constraints. -/
structure Start (w : World) : Prop where
  locks : w.pg.locks = []
  pending : ∀ p, w.pg.pending p = []
  integrity : Integrity w.pg.db

theorem Start.idle (h : Start w) (p : ℕ) : w.pg.Idle p :=
  ⟨h.pending p,by simp [h.locks]⟩

theorem Start.sane (h : Start w) : Sane w.pg :=
  ⟨by simp [Pg.Sound,h.locks],h.integrity⟩

/-- Runs of the server from a world without calls. -/
abbrev Reach (x : Externals) (ok : Server → Action → Prop) (w : World) (d : Server) : Prop :=
  Run (server x) ok ⟨w,[]⟩ d

variable {ok : Server → Action → Prop} {d e : Server}

/-- Every assertion of the outline holds in every reachable configuration. -/
theorem Reach.valid (hok : ∀ c l, ok c l → Arrives c l) (hw : Start w) (h : Reach x ok w d) :
    (outline x).Valid d :=
  (outline x).sound hw.sane hw.idle (h.mono hok)

theorem Reach.integrity (hok : ∀ c l, ok c l → Arrives c l) (hw : Start w) (h : Reach x ok w d) :
    Integrity d.world.pg.db :=
  (h.valid hok hw).inv.integrity

/-- Every step leaves the tables alone or is the atomic change of the call that moves. -/
theorem step_refines (hv : (outline x).Valid d) {l : Action} (hn : (server x).next d l = some e) :
    e.world.pg.db = d.world.pg.db ∨ ∃ p q ch, l = .run p ch ∧ d.pool[p]? = some q ∧
      q.Commits d.world.pg.db e.world.pg.db := by
  cases l with
  | spawn q =>
    obtain rfl := Option.some.inj hn
    exact .inl rfl
  | run p ch =>
    obtain ⟨q,q',w,hq,hs,rfl⟩ := (server x).next_run hn
    obtain ⟨hadv,_⟩ := Call.own hv.inv (hv.holds p q hq) hs
    rcases hadv.change with he | hc
    · exact .inl he
    · exact .inr ⟨p,q,ch,rfl,hq,hc⟩
  | env e =>
    obtain ⟨w,hw,rfl⟩ := (server x).next_env hn
    obtain rfl := Option.some.inj hw
    exact .inl (by rw [Event.apply_pg])

/-- What the atomic changes keep, every run keeps. -/
theorem Reach.tables (hok : ∀ c l, ok c l → Arrives c l) (hw : Start w) {I : Db → Prop}
    (h₀ : I w.pg.db) (hstep : ∀ d e, Integrity d → I d → Transition d e → I e)
    (h : Reach x ok w d) : I d.world.pg.db := by
  refine h.invariant (I := fun d => I d.world.pg.db) h₀ fun a l b hr ha hl hn => ?_
  have hv := Reach.valid hok hw hr
  rcases step_refines hv hn with he | ⟨p,q,ch,_,_,hc⟩
  · rw [he]
    exact ha
  · exact hstep _ _ hv.inv.integrity ha hc.transition

/-- Later tables have grown from earlier ones. -/
theorem Reach.grows (hok : ∀ c l, ok c l → Arrives c l) (hw : Start w) (h : Reach x ok w d)
    (h' : Run (server x) ok d e) : Grows d.world.pg.db e.world.pg.db := by
  refine h'.invariant (I := fun e => Grows d.world.pg.db e.world.pg.db) (Grows.refl _)
    fun a l b hr ha hl hn => ?_
  have hv := Reach.valid hok hw (h.trans hr)
  rcases step_refines hv hn with he | ⟨p,q,ch,_,_,hc⟩
  · rw [he]
    exact ha
  · exact ha.trans hc.transition.grows

/-! ### A small world

Three users and a group channel of the first two, for concrete runs. -/

def smallDb : Db where
  users := [⟨1,"ada","",true⟩,⟨2,"ben","",true⟩,⟨3,"cas","",true⟩]
  channels := [⟨10,some "team",.group,false,none,none,0⟩]
  memberships := [⟨100,.admin,0,none,1,10⟩,⟨101,.member,1,none,2,10⟩]
  messages := []
  reactions := []

def smallWorld : World where
  pg := ⟨smallDb,fun _ => [],[]⟩
  redis := ⟨fun _ => [],fun _ => [],fun _ _ => 0,fun _ => []⟩
  sockets := []
  connections := 0
  queue := []
  inbox := []
  popped := []

theorem smallWorld_start : Start smallWorld := by
  refine ⟨rfl,fun _ => rfl,by decide,by decide,?_,?_,by decide,?_⟩
  · intro m hm
    simp [smallWorld,smallDb] at hm
  · intro m hm
    refine ⟨⟨10,some "team",.group,false,none,none,0⟩,by decide,?_⟩
    simp only [smallWorld,smallDb,Db.members,List.map_cons,List.map_nil,List.mem_cons,List.not_mem_nil,
      or_false] at hm
    rcases hm with rfl | rfl <;> rfl
  · intro m hm
    simp [smallWorld,smallDb] at hm

/-- Every signature is valid, all direct pairs share a lock key, and the ORM wraps driver
errors. -/
def plain : Externals := ⟨fun _ _ _ _ => true,fun _ _ => 0,true⟩

/-- Nothing fails, at time 5. -/
def calm : Choice := ⟨false,false,false,[],5,0⟩

def drawing (ids : List Uuid) : Choice := { calm with ids := ids }

/-- `n` calm steps of call `p`. -/
def steps (p n : ℕ) : List Action := List.replicate n (.run p calm)

def note (u c : Uuid) (text : String) : SendMessageInput := ⟨u,c,text,"iv","tag","",0,none,.undefined⟩

/-- The payload of a note sent to the channel of the small world. -/
def posted (u id : Uuid) (name : String) (seq : ℕ) (text : String) : MessagePayload :=
  toMessagePayload ((SendAttempt.mk (note u 10 text) none name 0 5).row id seq) (some name)

/-- A `send` of `u` up to and including its commit, as call `p`, drawing message id `id`. -/
def sending (p : ℕ) (u c id : Uuid) (text : String) : List Action :=
  .spawn (.send (.check (note u c text) none))::steps p 4++.run p (drawing [id])::steps p 3

/-- Nothing fails, and the other side of a `Promise.all` goes first. -/
def otherSide : Choice := { calm with side := true }

/-- A whole `send` that ends by queueing its delivery job. -/
def sendingAll (p : ℕ) (u c id : Uuid) (text : String) : List Action :=
  sending p u c id text++.run p otherSide::steps p 6

/-- A worker that takes the first job and runs it. -/
def delivering (p : ℕ) : List Action := [.spawn (.worker .take),.run p calm,.run p otherSide,.run p calm]

/-- A whole `deleteMessage` of its channel's newest message. -/
def deletingNewest (p : ℕ) (u m : Uuid) : List Action := .spawn (.deleteMessage (.select u m))::steps p 10

end ZevraServer
