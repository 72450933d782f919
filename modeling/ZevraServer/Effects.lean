import ZevraServer.Refinement

/-!
# What a step does outside Postgres

A step of a call does at most one thing to Redis, the sockets and the queue, and the
control state and the choice of the environment say which. Everything the caches,
the rooms and the delivery queue need to know about the calls is derived from
`Call.step_world`.
-/

namespace ZevraServer

open ReadCommitted Interleaving

/-- One command to Redis, Socket.IO or the delivery queue. -/
inductive Effect
  | nothing
  | setMembers (channelId : Uuid) (userIds : List Uuid)
  | invalidate (channelId : Uuid)
  | cacheMessage (channelId : Uuid) (m : MessagePayload)
  | invalidateMessages (channelId : Uuid)
  | addPending (userIds : List Uuid) (score : ℕ) (m : MessagePayload)
  | removePending (userId : Uuid) (raw : List MessagePayload)
  | countUnread (userIds : List Uuid) (channelId : Uuid)
  | resetUnread (userId channelId : Uuid)
  | enqueue (job : MessageDeliveryJob)
  | dequeue (n : ℕ)
  | emit (rooms : List Room) (except? : Option ℕ) (e : ServerEvent)
  | socketsJoin (rooms : List Room) (channelId : Uuid)
  | socketsLeave (room : Room) (channelId : Uuid)
  | join (socket : ℕ) (userId : Uuid) (rooms : List Room)
  | leave (socket : ℕ) (userId channelId : Uuid)
  | announce (socket : ℕ) (userId : Uuid)
  | disconnect (socket : ℕ)
  deriving DecidableEq, Repr

def Effect.apply (w : World) : Effect → World
  | .nothing => w
  | .setMembers c ids => { w with redis := w.redis.setMembers c ids }
  | .invalidate c => { w with redis := w.redis.invalidate c }
  | .cacheMessage c m => { w with redis := w.redis.cacheMessage c m }
  | .invalidateMessages c => { w with redis := w.redis.invalidateMessages c }
  | .addPending ids score m => { w with redis := w.redis.addPendingMessage ids score m }
  | .removePending u raw =>
    { w with
      redis := w.redis.removePending u raw
      popped := w.popped++raw.map (u,·) }
  | .countUnread ids c => { w with redis := w.redis.incrementUnreadMany ids c }
  | .resetUnread u c => { w with redis := w.redis.resetUnread u c }
  | .enqueue job => { w with queue := w.queue++[job] }
  | .dequeue n => { w with queue := w.queue.eraseIdx n }
  | .emit rooms except? e => w.emit rooms except? e
  | .socketsJoin rooms c => w.socketsJoin rooms c
  | .socketsLeave room c => w.socketsLeave room c
  | .join s u rooms => w.onSocket s u (·.join rooms)
  | .leave s u c => w.onSocket s u (·.leave c)
  | .announce s u =>
    let w := w.onSocket s u fun s => { s with announced := true }
    { w with
      inbox := w.inbox++((w.sockets.filter fun k => k.id = s ∧ k.user = u).map
        fun k => (k.id,k.user,.connected u s)) }
  | .disconnect s => w.disconnect s

/-- Nothing, if the command fails. -/
def Effect.unless (fail : Bool) (e : Effect) : Effect := if fail then .nothing else e

/-! ### The effects of the calls -/

def GetMembers.effect (ch : Choice) : GetMembers → Effect
  | .store c ms => .unless ch.fail (.setMembers c ms)
  | _ => .nothing

def IsMember.effect (ch : Choice) : IsMember → Effect
  | .members g _ => g.effect ch
  | _ => .nothing

def Delivery.effect (ch : Choice) (d : Delivery) : Effect :=
  .unless ch.fail (if ch.side then
      .addPending d.job.offlineUserIds (pendingScore ch d.job.message) d.job.message
    else .countUnread d.job.recipientIds d.job.message.channelId)

def Worker.effect (ch : Choice) : Worker → Effect
  | .take => .dequeue ch.pick
  | .running d => if ch.stall then .enqueue d.job else d.effect ch
  | _ => .nothing

def Send.effect (ch : Choice) : Send → Effect
  | .lookup _ _ g _ => if ch.side then .nothing else g.effect ch
  | .emit m except? _ _ => .emit [.channel m.channelId] except? (.messageNew m)
  | .cache m _ _ => .unless ch.fail (.cacheMessage m.channelId m)
  | .enqueue job => .unless ch.fail (.enqueue job)
  | .deliver d => d.effect ch
  | _ => .nothing

def DeleteMessage.effect (ch : Choice) : DeleteMessage → Effect
  | .invalidate _ c => .unless ch.fail (.invalidateMessages c)
  | .emit m c => .emit [.channel c] none (.messageDeleted m c)
  | _ => .nothing

def GetPending.effect (ch : Choice) : GetPending → Effect
  | .remove u raw => .unless ch.fail (.removePending u raw)
  | _ => .nothing

def GetMessages.effect (ch : Choice) : GetMessages → Effect
  | .invalidate a => .unless ch.fail (.invalidateMessages a.channelId)
  | _ => .nothing

def Create.effect (ch : Choice) : Create → Effect
  | .store a channel => .unless ch.fail (.setMembers channel.id a.memberIds)
  | .join a channel created =>
    .socketsJoin ((if created then a.memberIds else [a.userId]).map .user) channel.id
  | .emit a channel =>
    .emit (a.memberIds.map .user) none (.channelCreated channel.id a.memberIds a.userId)
  | .client a channel _ =>
    match a.socket with
    | none => .nothing
    | some s => .join s a.userId [.channel channel.id]
  | _ => .nothing

def AddMember.effect (ch : Choice) : AddMember → Effect
  | .invalidate a => .unless ch.fail (.invalidate a.channelId)
  | .join a => .socketsJoin [.user a.newUserId] a.channelId
  | .emit a => .emit [.channel a.channelId,.user a.newUserId] none (.memberAdded a.channelId a.newUserId)
  | _ => .nothing

def RemoveMember.effect (ch : Choice) : RemoveMember → Effect
  | .cleanup a _ _ _ =>
    .unless ch.fail (if ch.side then .invalidate a.channelId
      else .resetUnread a.targetUserId a.channelId)
  | .emit a _ =>
    .emit [.channel a.channelId,.user a.targetUserId] none (.memberRemoved a.channelId a.targetUserId)
  | .leave a _ => .socketsLeave (.user a.targetUserId) a.channelId
  | _ => .nothing

def Connection.effect (ch : Choice) : Connection → Effect
  | .channels s _ => if ch.fail then .disconnect s else .nothing
  | .join s u ids => if ch.fail then .disconnect s else .join s u (.user u::ids.map .channel)
  | .announce s u => .announce s u
  | _ => .nothing

def RoomCall.effect (ch : Choice) : RoomCall → Effect
  | .member _ _ _ _ call => call.effect ch
  | .move s u c joins => if joins then .join s u [.channel c] else .leave s u c
  | _ => .nothing

def Call.effect (ch : Choice) : Call → Effect
  | .send q => q.effect ch
  | .deleteMessage q => q.effect ch
  | .worker q => q.effect ch
  | .getPending q => q.effect ch
  | .getMessages q => q.effect ch
  | .getInbox _ => .nothing
  | .getMembers q => q.effect ch
  | .isMember q => q.effect ch
  | .create q => q.effect ch
  | .addMember q => q.effect ch
  | .removeMember q => q.effect ch
  | .connection q => q.effect ch
  | .room q => q.effect ch

/-! ### Who issues which command -/

/-- The member lookup a call is in. -/
def Call.lookup : Call → Option GetMembers
  | .getMembers g => some g
  | .isMember (.members g _) => some g
  | .room (.member _ _ _ _ (.members g _)) => some g
  | .send (.lookup _ _ g _) => some g
  | _ => none

/-- The delivery a call is running. -/
def Call.delivery : Call → Option Delivery
  | .send (.deliver d) => some d
  | .worker (.running d) => some d
  | _ => none

/-- One constructor for each command and the control state that issues it. -/
inductive Issues (ch : Choice) : Call → Effect → Prop
  | nothing (q) : Issues ch q .nothing
  | snapshot {q c ms} (h : Call.lookup q = some (.store c ms)) : Issues ch q (.setMembers c ms)
  | created (a channel) : Issues ch (.create (.store a channel)) (.setMembers channel.id a.memberIds)
  | added (a) : Issues ch (.addMember (.invalidate a)) (.invalidate a.channelId)
  | removed (a o i r) : Issues ch (.removeMember (.cleanup a o i r)) (.invalidate a.channelId)
  | reset (a o i r) :
      Issues ch (.removeMember (.cleanup a o i r)) (.resetUnread a.targetUserId a.channelId)
  | push (m ms k) (h : ch.fail = false) : Issues ch (.send (.cache m ms k)) (.cacheMessage m.channelId m)
  | drop (m c) : Issues ch (.deleteMessage (.invalidate m c)) (.invalidateMessages c)
  | broken (a) : Issues ch (.getMessages (.invalidate a)) (.invalidateMessages a.channelId)
  | enqueue (job) : Issues ch (.send (.enqueue job)) (.enqueue job)
  | requeue (d) : Issues ch (.worker (.running d)) (.enqueue d.job)
  | queue {q d} (h : Call.delivery q = some d) :
      Issues ch q (.addPending d.job.offlineUserIds (pendingScore ch d.job.message) d.job.message)
  | count {q d} (h : Call.delivery q = some d) :
      Issues ch q (.countUnread d.job.recipientIds d.job.message.channelId)
  | take : Issues ch (.worker .take) (.dequeue ch.pick)
  | pop (u raw) : Issues ch (.getPending (.remove u raw)) (.removePending u raw)
  | emit (q rooms i ev) : Issues ch q (.emit rooms i ev)
  | joinUsers (a channel created) : Issues ch (.create (.join a channel created))
      (.socketsJoin ((if created then a.memberIds else [a.userId]).map .user) channel.id)
  | joinUser (a) : Issues ch (.addMember (.join a)) (.socketsJoin [.user a.newUserId] a.channelId)
  | leaveUser (a o) : Issues ch (.removeMember (.leave a o)) (.socketsLeave (.user a.targetUserId) a.channelId)
  | client (a channel created s) (h : a.socket = some s) :
      Issues ch (.create (.client a channel created)) (.join s a.userId [.channel channel.id])
  | joinAll (s u ids) :
      Issues ch (.connection (.join s u ids)) (.join s u (.user u::ids.map .channel))
  | joinRoom (s u c) : Issues ch (.room (.move s u c true)) (.join s u [.channel c])
  | leaveRoom (s u c) : Issues ch (.room (.move s u c false)) (.leave s u c)
  | announce (s u) : Issues ch (.connection (.announce s u)) (.announce s u)
  | reject (q s) : Issues ch (.connection q) (.disconnect s)

section

variable {ch : Choice} {q : Call}

theorem Issues.unless {f : Effect} (h : ch.fail = false → Issues ch q f) :
    Issues ch q (.unless ch.fail f) := by
  unfold Effect.unless
  split
  · exact .nothing q
  · rename_i hf
    exact h (by simpa using hf)

theorem Issues.of_lookup {g : GetMembers} (h : q.lookup = some g) : Issues ch q (g.effect ch) := by
  cases g with
  | store c ms => exact .unless fun _ => .snapshot h
  | _ => exact .nothing q

theorem Issues.of_delivery {d : Delivery} (h : q.delivery = some d) : Issues ch q (d.effect ch) := by
  refine .unless fun _ => ?_
  split
  · exact .queue h
  · exact .count h

/-- Every command is issued from a control state of the list. -/
theorem Call.issues (q : Call) (ch : Choice) : Issues ch q (q.effect ch) := by
  cases q with
  | send q =>
    cases q with
    | lookup m i g k =>
      simp only [Call.effect,Send.effect]
      split
      · exact .nothing _
      · exact .of_lookup rfl
    | emit m i ms k => exact .emit _ _ _ _
    | cache m ms k => exact .unless fun hf => .push m ms k hf
    | enqueue job => exact .unless fun _ => .enqueue job
    | deliver d => exact .of_delivery rfl
    | _ => exact .nothing _
  | deleteMessage q =>
    cases q with
    | invalidate m c => exact .unless fun _ => .drop m c
    | emit m c => exact .emit _ _ _ _
    | _ => exact .nothing _
  | worker q =>
    cases q with
    | take => exact .take
    | running d =>
      simp only [Call.effect,Worker.effect]
      split
      · exact .requeue d
      · exact .of_delivery rfl
    | _ => exact .nothing _
  | getPending q =>
    cases q with
    | remove u raw => exact .unless fun _ => .pop u raw
    | _ => exact .nothing _
  | getMessages q =>
    cases q with
    | invalidate a => exact .unless fun _ => .broken a
    | _ => exact .nothing _
  | getInbox q => exact .nothing _
  | getMembers g => exact .of_lookup rfl
  | isMember q =>
    cases q with
    | members g u => exact .of_lookup rfl
    | _ => exact .nothing _
  | create q =>
    cases q with
    | store a channel => exact .unless fun _ => .created a channel
    | join a channel created => exact .joinUsers a channel created
    | emit a channel => exact .emit _ _ _ _
    | client a channel created =>
      simp only [Call.effect,Create.effect]
      split
      · exact .nothing _
      · rename_i s hs
        exact .client a channel created s hs
    | _ => exact .nothing _
  | addMember q =>
    cases q with
    | invalidate a => exact .unless fun _ => .added a
    | join a => exact .joinUser a
    | emit a => exact .emit _ _ _ _
    | _ => exact .nothing _
  | removeMember q =>
    cases q with
    | cleanup a o i r =>
      refine .unless fun _ => ?_
      split
      · exact .removed a o i r
      · exact .reset a o i r
    | emit a o => exact .emit _ _ _ _
    | leave a o => exact .leaveUser a o
    | _ => exact .nothing _
  | connection q =>
    cases q with
    | channels s u =>
      simp only [Call.effect,Connection.effect]
      split
      · exact .reject _ s
      · exact .nothing _
    | join s u ids =>
      simp only [Call.effect,Connection.effect]
      split
      · exact .reject _ s
      · exact .joinAll s u ids
    | announce s u => exact .announce s u
    | _ => exact .nothing _
  | room q =>
    cases q with
    | member s u c joins call =>
      cases call with
      | members g v => exact .of_lookup rfl
      | _ => exact .nothing _
    | move s u c joins =>
      cases joins with
      | false => exact .leaveRoom s u c
      | true => exact .joinRoom s u c
    | _ => exact .nothing _

end

/-! ### A step is a change of Postgres and its effect -/

section

variable {x : Externals} {p : ℕ} {ch : Choice} {w w' : World}

theorem Effect.apply_pg (e : Effect) (w : World) : (e.apply w).pg = w.pg := by
  cases e <;> rfl

/-- The world after a step, up to Postgres. -/
def AfterStep (w w' : World) (e : Effect) : Prop := w' = e.apply { w with pg := w'.pg }

theorem AfterStep.of_eq {e : Effect} (h : w' = e.apply w) : AfterStep w w' e := by
  have hpg : w'.pg = w.pg := by rw [h,Effect.apply_pg]
  rw [AfterStep,hpg]
  exact h

theorem AfterStep.of_pg {pg : Postgres} (h : w' = { w with pg := pg }) : AfterStep w w' .nothing := by
  subst h
  rfl

theorem GetMembers.step_effect {g g' : GetMembers} (h : g.step ch w = some (g',w')) :
    w' = (g.effect ch).apply w := by
  unfold GetMembers.step at h
  split at h <;> try split_ifs at h
  all_goals simp only [Option.some.injEq,Prod.mk.injEq,reduceCtorEq] at h
  all_goals simp_all [GetMembers.effect,Effect.unless,Effect.apply]

theorem IsMember.step_effect {q q' : IsMember} (h : q.step ch w = some (q',w')) :
    w' = (q.effect ch).apply w := by
  cases q with
  | members g u =>
    obtain ⟨⟨g',v⟩,hg,he⟩ := Option.map_eq_some_iff.mp h
    obtain ⟨_,rfl⟩ := Prod.mk.inj he
    exact GetMembers.step_effect hg
  | _ =>
    simp only [IsMember.step] at h
    try split_ifs at h
    all_goals simp only [Option.some.injEq,Prod.mk.injEq,reduceCtorEq] at h
    all_goals rw [← h.2]; rfl

theorem Delivery.step_effect {d d' : Delivery} (h : d.step ch w = some (d',w')) :
    w' = (d.effect ch).apply w := by
  unfold Delivery.step at h
  split_ifs at h
  all_goals
    simp only [Option.some.injEq,Prod.mk.injEq] at h
    rw [← h.2]
    simp_all [Delivery.effect,Effect.unless,Effect.apply]

theorem Worker.step_effect {q q' : Worker} (h : q.step ch w = some (q',w')) :
    w' = (q.effect ch).apply w := by
  cases q with
  | take =>
    simp only [Worker.step] at h
    split at h
    · simp at h
    · obtain ⟨_,rfl⟩ := Prod.mk.inj (Option.some.inj h)
      rfl
  | running d =>
    simp only [Worker.step] at h
    split at h
    · rename_i hstall
      obtain ⟨_,rfl⟩ := Prod.mk.inj (Option.some.inj h)
      simp [Worker.effect,hstall,Effect.apply]
    · rename_i hstall
      obtain ⟨⟨d',v⟩,hd,he⟩ := Option.map_eq_some_iff.mp h
      obtain ⟨_,rfl⟩ := Prod.mk.inj he
      simpa [Worker.effect,hstall] using Delivery.step_effect hd
  | done d => simp [Worker.step] at h
  | stalled => simp [Worker.step] at h

theorem Send.step_statement {a : SendAttempt} {next : Send} {r : Option (Except DbError Postgres)}
    {q : Send} (h : Send.statement a w next r = some (q,w')) : AfterStep w w' .nothing := by
  rcases Send.own_statement h with ⟨_,_,_,rfl⟩ | ⟨_,_,_,rfl⟩
  · exact .of_eq rfl
  · exact .of_pg rfl

theorem Send.step_effect {q q' : Send} (h : q.step x p ch w = some (q',w')) :
    AfterStep w w' (q.effect ch) := by
  cases q with
  | check input e =>
    simp only [Send.step] at h
    split at h
    · obtain ⟨_,rfl⟩ := Prod.mk.inj (Option.some.inj h)
      exact .of_eq rfl
    · split at h
      · obtain ⟨_,rfl⟩ := Prod.mk.inj (Option.some.inj h)
        exact .of_eq rfl
      · split at h <;> obtain ⟨_,rfl⟩ := Prod.mk.inj (Option.some.inj h) <;> exact .of_eq rfl
  | begin a =>
    obtain ⟨_,rfl⟩ := Prod.mk.inj (Option.some.inj h)
    exact .of_eq rfl
  | maxSeq a =>
    simp only [Send.step] at h
    split at h <;> obtain ⟨_,rfl⟩ := Prod.mk.inj (Option.some.inj h) <;> exact .of_eq rfl
  | commit a msg =>
    simp only [Send.step] at h
    split at h <;> obtain ⟨_,rfl⟩ := Prod.mk.inj (Option.some.inj h)
    · exact .of_eq rfl
    · exact .of_pg rfl
  | rollback a err =>
    simp only [Send.step] at h
    split at h <;> obtain ⟨_,rfl⟩ := Prod.mk.inj (Option.some.inj h) <;> exact .of_pg rfl
  | lookup m e g k =>
    simp only [Send.step] at h
    split at h
    · rename_i hside
      split at h
      · simp at h
      · obtain ⟨_,rfl⟩ := Prod.mk.inj (Option.some.inj h)
        exact .of_eq (by simp [Send.effect,hside,Effect.apply])
    · rename_i hside
      obtain ⟨⟨g',v⟩,hg,he⟩ := Option.map_eq_some_iff.mp h
      obtain ⟨_,rfl⟩ := Prod.mk.inj he
      exact .of_eq (by simpa [Send.effect,hside] using GetMembers.step_effect hg)
  | emit m e ms k =>
    obtain ⟨_,rfl⟩ := Prod.mk.inj (Option.some.inj h)
    exact .of_eq rfl
  | cache m ms k =>
    obtain ⟨_,rfl⟩ := Prod.mk.inj (Option.some.inj h)
    refine .of_eq ?_
    cases hf : ch.fail <;> simp [Send.effect,Effect.unless,Effect.apply,hf]
  | enqueue job =>
    simp only [Send.step] at h
    split at h
    · rename_i hf
      obtain ⟨_,rfl⟩ := Prod.mk.inj (Option.some.inj h)
      exact .of_eq (by simp [Send.effect,Effect.unless,Effect.apply,hf])
    · rename_i hf
      obtain ⟨_,rfl⟩ := Prod.mk.inj (Option.some.inj h)
      exact .of_eq (by simp [Send.effect,Effect.unless,Effect.apply,hf])
  | deliver d =>
    obtain ⟨⟨d',v⟩,hd,he⟩ := Option.map_eq_some_iff.mp h
    obtain ⟨_,rfl⟩ := Prod.mk.inj he
    exact .of_eq (Delivery.step_effect hd)
  | done m => simp [Send.step] at h
  | failed err => simp [Send.step] at h
  | _ =>
    simp only [Send.step] at h
    split at h
    · obtain ⟨_,rfl⟩ := Prod.mk.inj (Option.some.inj h)
      exact .of_eq rfl
    · exact Send.step_statement h

theorem DeleteMessage.step_effect {q q' : DeleteMessage} (h : q.step p ch w = some (q',w')) :
    AfterStep w w' (q.effect ch) := by
  cases q with
  | select u m =>
    simp only [DeleteMessage.step] at h
    split at h
    · obtain ⟨_,rfl⟩ := Prod.mk.inj (Option.some.inj h)
      exact .of_eq rfl
    · split at h
      · obtain ⟨_,rfl⟩ := Prod.mk.inj (Option.some.inj h)
        exact .of_eq rfl
      · split_ifs at h <;> obtain ⟨_,rfl⟩ := Prod.mk.inj (Option.some.inj h) <;> exact .of_eq rfl
  | begin m c =>
    obtain ⟨_,rfl⟩ := Prod.mk.inj (Option.some.inj h)
    exact .of_eq rfl
  | previous m c =>
    simp only [DeleteMessage.step] at h
    split at h <;> obtain ⟨_,rfl⟩ := Prod.mk.inj (Option.some.inj h) <;> exact .of_eq rfl
  | commit m c =>
    simp only [DeleteMessage.step] at h
    split at h <;> obtain ⟨_,rfl⟩ := Prod.mk.inj (Option.some.inj h)
    · exact .of_eq rfl
    · exact .of_pg rfl
  | rollback err =>
    obtain ⟨_,rfl⟩ := Prod.mk.inj (Option.some.inj h)
    exact .of_pg rfl
  | invalidate m c =>
    obtain ⟨_,rfl⟩ := Prod.mk.inj (Option.some.inj h)
    refine .of_eq ?_
    cases hf : ch.fail <;> simp [DeleteMessage.effect,Effect.unless,Effect.apply,hf]
  | emit m c =>
    obtain ⟨_,rfl⟩ := Prod.mk.inj (Option.some.inj h)
    exact .of_eq rfl
  | done m c => simp [DeleteMessage.step] at h
  | failed err => simp [DeleteMessage.step] at h
  | _ =>
    simp only [DeleteMessage.step] at h
    split at h
    · obtain ⟨_,rfl⟩ := Prod.mk.inj (Option.some.inj h)
      exact .of_eq rfl
    · obtain ⟨_,_,_,rfl⟩ := DeleteMessage.own_statement h
      exact .of_pg rfl

theorem GetPending.step_effect {q q' : GetPending} (h : q.step ch w = some (q',w')) :
    w' = (q.effect ch).apply w := by
  cases q with
  | range u =>
    simp only [GetPending.step] at h
    split at h <;> obtain ⟨_,rfl⟩ := Prod.mk.inj (Option.some.inj h) <;> rfl
  | remove u raw =>
    simp only [GetPending.step] at h
    split at h <;> rename_i hf <;> obtain ⟨_,rfl⟩ := Prod.mk.inj (Option.some.inj h) <;>
      simp [GetPending.effect,Effect.unless,Effect.apply,hf]
  | done ms n => simp [GetPending.step] at h

theorem GetMessages.step_effect {q q' : GetMessages} (h : q.step ch w = some (q',w')) :
    w' = (q.effect ch).apply w := by
  cases q with
  | invalidate a =>
    obtain ⟨_,rfl⟩ := Prod.mk.inj (Option.some.inj h)
    cases hf : ch.fail <;> simp [GetMessages.effect,Effect.unless,Effect.apply,hf]
  | done a page => simp [GetMessages.step] at h
  | failed err => simp [GetMessages.step] at h
  | _ =>
    simp only [GetMessages.step] at h
    split_ifs at h <;> obtain ⟨_,rfl⟩ := Prod.mk.inj (Option.some.inj h) <;> rfl

theorem Create.step_effect {q q' : Create} (h : q.step x p ch w = some (q',w')) :
    AfterStep w w' (q.effect ch) := by
  cases q with
  | find input =>
    simp only [Create.step] at h
    split at h
    · obtain ⟨_,rfl⟩ := Prod.mk.inj (Option.some.inj h)
      exact .of_eq rfl
    · split_ifs at h <;> obtain ⟨_,rfl⟩ := Prod.mk.inj (Option.some.inj h) <;> exact .of_eq rfl
  | begin a =>
    obtain ⟨_,rfl⟩ := Prod.mk.inj (Option.some.inj h)
    exact .of_eq rfl
  | existing a =>
    simp only [Create.step] at h
    split at h
    · obtain ⟨_,rfl⟩ := Prod.mk.inj (Option.some.inj h)
      exact .of_eq rfl
    · split at h <;> obtain ⟨_,rfl⟩ := Prod.mk.inj (Option.some.inj h) <;> exact .of_eq rfl
  | summary a c =>
    simp only [Create.step] at h
    split at h <;> obtain ⟨_,rfl⟩ := Prod.mk.inj (Option.some.inj h) <;> exact .of_eq rfl
  | commit a channel created =>
    simp only [Create.step] at h
    split at h
    · obtain ⟨_,rfl⟩ := Prod.mk.inj (Option.some.inj h)
      exact .of_eq rfl
    · split at h <;> obtain ⟨_,rfl⟩ := Prod.mk.inj (Option.some.inj h) <;> exact .of_pg rfl
  | rollback err =>
    obtain ⟨_,rfl⟩ := Prod.mk.inj (Option.some.inj h)
    exact .of_pg rfl
  | store a channel =>
    obtain ⟨_,rfl⟩ := Prod.mk.inj (Option.some.inj h)
    refine .of_eq ?_
    cases hf : ch.fail <;> simp [Create.effect,Effect.unless,Effect.apply,hf]
  | join a channel created =>
    obtain ⟨_,rfl⟩ := Prod.mk.inj (Option.some.inj h)
    exact .of_eq rfl
  | emit a channel =>
    obtain ⟨_,rfl⟩ := Prod.mk.inj (Option.some.inj h)
    exact .of_eq rfl
  | client a channel created =>
    obtain ⟨_,rfl⟩ := Prod.mk.inj (Option.some.inj h)
    refine .of_eq ?_
    cases ha : a.socket <;> simp [Create.effect,Effect.apply,ha]
  | done a channel created => simp [Create.step] at h
  | failed err => simp [Create.step] at h
  | _ =>
    simp only [Create.step] at h
    split at h
    · obtain ⟨_,rfl⟩ := Prod.mk.inj (Option.some.inj h)
      exact .of_eq rfl
    · rcases Create.own_statement h with ⟨_,_,rfl⟩ | ⟨_,_,_,rfl⟩
      · exact .of_eq rfl
      · exact .of_pg rfl

theorem AddMember.step_effect {q q' : AddMember} (h : q.step p ch w = some (q',w')) :
    AfterStep w w' (q.effect ch) := by
  cases q with
  | insert a =>
    simp only [AddMember.step] at h
    split at h
    · obtain ⟨_,rfl⟩ := Prod.mk.inj (Option.some.inj h)
      exact .of_eq rfl
    · split at h
      · simp at h
      · obtain ⟨_,rfl⟩ := Prod.mk.inj (Option.some.inj h)
        exact .of_eq rfl
      · obtain ⟨_,rfl⟩ := Prod.mk.inj (Option.some.inj h)
        exact .of_pg rfl
  | touch a =>
    simp only [AddMember.step] at h
    split at h
    · obtain ⟨_,rfl⟩ := Prod.mk.inj (Option.some.inj h)
      exact .of_eq rfl
    · obtain ⟨_,_,he⟩ := Option.map_eq_some_iff.mp h
      obtain ⟨_,rfl⟩ := Prod.mk.inj he
      exact .of_pg rfl
  | invalidate a =>
    obtain ⟨_,rfl⟩ := Prod.mk.inj (Option.some.inj h)
    refine .of_eq ?_
    cases hf : ch.fail <;> simp [AddMember.effect,Effect.unless,Effect.apply,hf]
  | join a =>
    obtain ⟨_,rfl⟩ := Prod.mk.inj (Option.some.inj h)
    exact .of_eq rfl
  | emit a =>
    obtain ⟨_,rfl⟩ := Prod.mk.inj (Option.some.inj h)
    exact .of_eq rfl
  | done a => simp [AddMember.step] at h
  | failed err => simp [AddMember.step] at h
  | _ =>
    obtain ⟨rfl,_⟩ := AddMember.query_eq h
    exact .of_eq rfl

theorem RemoveMember.step_effect {q q' : RemoveMember} (h : q.step p ch w = some (q',w')) :
    AfterStep w w' (q.effect ch) := by
  cases q with
  | role a =>
    simp only [RemoveMember.step] at h
    split_ifs at h <;> obtain ⟨_,rfl⟩ := Prod.mk.inj (Option.some.inj h) <;> exact .of_eq rfl
  | lock a =>
    simp only [RemoveMember.step] at h
    split_ifs at h
    · obtain ⟨_,rfl⟩ := Prod.mk.inj (Option.some.inj h)
      exact .of_eq rfl
    · obtain ⟨_,rfl⟩ := Prod.mk.inj (Option.some.inj h)
      exact .of_eq rfl
    · obtain ⟨_,_,_,rfl⟩ := RemoveMember.own_statement h
      exact .of_pg rfl
  | delete a =>
    simp only [RemoveMember.step] at h
    split at h
    · obtain ⟨_,rfl⟩ := Prod.mk.inj (Option.some.inj h)
      exact .of_eq rfl
    · split at h
      · obtain ⟨_,rfl⟩ := Prod.mk.inj (Option.some.inj h)
        exact .of_eq rfl
      · obtain ⟨_,_,_,rfl⟩ := RemoveMember.own_statement h
        exact .of_pg rfl
  | admin a =>
    simp only [RemoveMember.step] at h
    split_ifs at h <;> obtain ⟨_,rfl⟩ := Prod.mk.inj (Option.some.inj h) <;> exact .of_eq rfl
  | oldest a =>
    simp only [RemoveMember.step] at h
    split_ifs at h <;> obtain ⟨_,rfl⟩ := Prod.mk.inj (Option.some.inj h) <;> exact .of_eq rfl
  | commit a o =>
    simp only [RemoveMember.step] at h
    split_ifs at h <;> obtain ⟨_,rfl⟩ := Prod.mk.inj (Option.some.inj h)
    · exact .of_eq rfl
    · exact .of_pg rfl
  | rollback err =>
    obtain ⟨_,rfl⟩ := Prod.mk.inj (Option.some.inj h)
    exact .of_pg rfl
  | cleanup a o i r =>
    simp only [RemoveMember.step] at h
    split_ifs at h <;> obtain ⟨_,rfl⟩ := Prod.mk.inj (Option.some.inj h) <;> refine .of_eq ?_ <;>
      simp_all [RemoveMember.effect,Effect.unless,Effect.apply]
  | emit a o =>
    obtain ⟨_,rfl⟩ := Prod.mk.inj (Option.some.inj h)
    exact .of_eq rfl
  | leave a o =>
    obtain ⟨_,rfl⟩ := Prod.mk.inj (Option.some.inj h)
    exact .of_eq rfl
  | done a o => simp [RemoveMember.step] at h
  | failed err => simp [RemoveMember.step] at h
  | _ =>
    simp only [RemoveMember.step] at h
    split_ifs at h
    · obtain ⟨_,rfl⟩ := Prod.mk.inj (Option.some.inj h)
      exact .of_eq rfl
    · obtain ⟨_,_,_,rfl⟩ := RemoveMember.own_statement h
      exact .of_pg rfl

theorem Connection.step_effect {q q' : Connection} (h : q.step ch w = some (q',w')) :
    w' = (q.effect ch).apply w := by
  cases q with
  | channels s u =>
    simp only [Connection.step] at h
    split at h <;> rename_i hf <;> obtain ⟨_,rfl⟩ := Prod.mk.inj (Option.some.inj h) <;>
      simp [Connection.effect,Effect.apply,hf]
  | join s u ids =>
    simp only [Connection.step] at h
    split at h <;> rename_i hf <;> obtain ⟨_,rfl⟩ := Prod.mk.inj (Option.some.inj h) <;>
      simp [Connection.effect,Effect.apply,hf]
  | register s u =>
    obtain ⟨_,rfl⟩ := Prod.mk.inj (Option.some.inj h)
    rfl
  | announce s u =>
    obtain ⟨_,rfl⟩ := Prod.mk.inj (Option.some.inj h)
    rfl
  | done s u => simp [Connection.step] at h
  | rejected => simp [Connection.step] at h

theorem RoomCall.step_effect {q q' : RoomCall} (h : q.step ch w = some (q',w')) :
    w' = (q.effect ch).apply w := by
  cases q with
  | member s u c joins call =>
    obtain ⟨⟨q',v⟩,hq,he⟩ := Option.map_eq_some_iff.mp h
    obtain ⟨_,rfl⟩ := Prod.mk.inj he
    exact IsMember.step_effect hq
  | move s u c joins =>
    obtain ⟨_,rfl⟩ := Prod.mk.inj (Option.some.inj h)
    cases joins <;> simp [RoomCall.effect,Effect.apply]
  | done s u c joins => simp [RoomCall.step] at h
  | failed code => simp [RoomCall.step] at h

/-- Up to Postgres, the world after a step is the effect of the control state on the world
before it. -/
theorem Call.step_world {q q' : Call} (h : q.step x p ch w = some (q',w')) :
    AfterStep w w' (q.effect ch) := by
  cases q with
  | send q => exact Send.step_effect (Call.of_step h).choose_spec.1
  | deleteMessage q => exact DeleteMessage.step_effect (Call.of_step h).choose_spec.1
  | create q => exact Create.step_effect (Call.of_step h).choose_spec.1
  | addMember q => exact AddMember.step_effect (Call.of_step h).choose_spec.1
  | removeMember q => exact RemoveMember.step_effect (Call.of_step h).choose_spec.1
  | worker q => exact .of_eq (Worker.step_effect (Call.of_step h).choose_spec.1)
  | getPending q => exact .of_eq (GetPending.step_effect (Call.of_step h).choose_spec.1)
  | getMessages q => exact .of_eq (GetMessages.step_effect (Call.of_step h).choose_spec.1)
  | getInbox q => exact .of_eq (GetInbox.step_world (Call.of_step h).choose_spec.1)
  | getMembers q => exact .of_eq (GetMembers.step_effect (Call.of_step h).choose_spec.1)
  | isMember q => exact .of_eq (IsMember.step_effect (Call.of_step h).choose_spec.1)
  | connection q => exact .of_eq (Connection.step_effect (Call.of_step h).choose_spec.1)
  | room q => exact .of_eq (RoomCall.step_effect (Call.of_step h).choose_spec.1)

theorem Event.channelMembers (f : Event) (w : World) (c : Uuid) :
    (f.apply w).redis.channelMembers c = w.redis.channelMembers c ∨
      (f.apply w).redis.channelMembers c = [] := by
  cases f with
  | expireMembers c' =>
    by_cases hc : c = c'
    · subst hc
      exact .inr (by simp [Event.apply,Redis.invalidate])
    · exact .inl (by simp [Event.apply,Redis.invalidate,Function.update_of_ne hc])
  | _ => exact .inl rfl

/-- What commits has no other effect. -/
theorem Call.Commits.effect {q : Call} {db db' : Db} (h : q.Commits db db') (ch : Choice) :
    q.effect ch = .nothing := by
  rcases h.cases with ⟨_,_,rfl,_⟩ | ⟨_,_,rfl,_⟩ | ⟨_,_,_,rfl,_⟩ | ⟨_,_,_,rfl,_⟩ | ⟨_,_,_,rfl,_⟩ <;> rfl

theorem Call.Commits.world {q q' : Call} {db db' : Db} (h : q.Commits db db')
    (hs : q.step x p ch w = some (q',w')) : w' = { w with pg := w'.pg } := by
  have hw := Call.step_world hs
  rw [AfterStep,h.effect] at hw
  exact hw

end

end ZevraServer
