import ZevraServer.Members

/-!
# `ChannelsService`: creating channels, adding and removing members

`create` opens a transaction for both channel types; a direct one starts with the
advisory lock of the sorted pair. `addMember` runs its checks and its insertion as
statements of their own. `removeMember` locks the channel row and promotes the
longest-standing member when the last admin goes. After the database, each call
updates the member cache and the rooms.
-/

namespace ZevraServer

open ReadCommitted

def MAX_CHANNEL_PARTICIPANTS : ℕ := 50

/-! ### `create` -/

/-- The arguments of `create`; `type` is `none` for any string but the two types. `socket`
is the client of `create-or-join`, which joins the room when `create` returns. -/
structure CreateInput where
  userId : Uuid
  participantIds : List Uuid
  type : Option ChannelType
  name : Option String
  socket : Option ℕ
  deriving DecidableEq, Repr

/-- A validated creation. -/
structure CreateArgs where
  userId : Uuid
  others : List Uuid
  type : ChannelType
  name : Option String
  socket : Option ℕ
  startedAt : ℕ
  deriving DecidableEq, Repr

def CreateArgs.memberIds (a : CreateArgs) : List Uuid := a.userId::a.others

/-- The sorted pair of `createDirect`. -/
def CreateArgs.pair (a : CreateArgs) : Uuid × Uuid :=
  let target := a.others.headD a.userId
  (min a.userId target,max a.userId target)

/-- `name || null`. -/
def nameOrNull : Option String → Option String
  | some name => if name.isEmpty then none else some name
  | none => none

section

variable {α : Type} [DecidableEq α]

/-- `[...new Set(ids)]`: the first occurrence of each, in order. -/
def uniqueIds (ids : List α) : List α := ids.reverse.dedup.reverse

theorem nodup_uniqueIds (ids : List α) : (uniqueIds ids).Nodup :=
  List.nodup_reverse.mpr (List.nodup_dedup _)

/-- The checks of `create` before its first query; `others` is what they leave of the
participants. They compare ids the way the program does, as strings. -/
def checkParticipantIds (userId : α) (participantIds : List α) (type : Option ChannelType) :
    Except HttpError (ChannelType × List α) :=
  let unique := uniqueIds participantIds
  let others := unique.filter (· ≠ userId)
  match type with
  | some .direct =>
    if unique.length ≠ 1 then
      .error (.badRequest "Direct message requires exactly 1 other participant")
    else if unique.head? = some userId then
      .error (.badRequest "Cannot create DM with yourself")
    else if others.isEmpty then .error (.badRequest "At least one other participant is required")
    else .ok (.direct,others)
  | some .group =>
    if MAX_CHANNEL_PARTICIPANTS < unique.length then
      .error (.badRequest "A channel can have at most 50 participants")
    else if others.isEmpty then .error (.badRequest "At least one other participant is required")
    else .ok (.group,others)
  | none => .error (.badRequest "Invalid channel type")

/-- What passes the checks: other ids, each once, and only one for a direct channel. -/
theorem of_checkParticipantIds {userId : α} {participantIds others : List α} {type : Option ChannelType}
    {t : ChannelType} (h : checkParticipantIds userId participantIds type = .ok (t,others)) :
    type = some t ∧ others = (uniqueIds participantIds).filter (· ≠ userId) ∧
      (t = .direct → others.length = 1) := by
  simp only [checkParticipantIds] at h
  split at h
  · split_ifs at h with hone hself hne
    obtain ⟨rfl,rfl⟩ := Prod.mk.inj (Except.ok.inj h)
    have hle := List.length_filter_le (fun v => decide (v ≠ userId)) (uniqueIds participantIds)
    have hlt : 0 < ((uniqueIds participantIds).filter (· ≠ userId)).length :=
      List.length_pos_iff.mpr (by simpa only [List.isEmpty_iff] using hne)
    exact ⟨rfl,rfl,fun _ => by omega⟩
  · split_ifs at h with hmax hne
    obtain ⟨rfl,rfl⟩ := Prod.mk.inj (Except.ok.inj h)
    exact ⟨rfl,rfl,by simp⟩
  · simp at h

end

/-- The checked creation. -/
def checkParticipants (input : CreateInput) : Except HttpError CreateArgs :=
  match checkParticipantIds input.userId input.participantIds input.type with
  | .error err => .error err
  | .ok (.direct,others) => .ok ⟨input.userId,others,.direct,none,input.socket,0⟩
  | .ok (.group,others) => .ok ⟨input.userId,others,.group,nameOrNull input.name,input.socket,0⟩

/-- `SELECT id FROM users WHERE id IN others AND isActive`. -/
def Db.activeAmong (db : Db) (ids : List Uuid) : List UserRow :=
  db.users.filter fun u => u.id ∈ ids ∧ u.isActive = true

/-- Membership rows of `a` and `b` in `DIRECT` channels. -/
def Db.directRows (db : Db) (a b : Uuid) : List MembershipRow :=
  db.memberships.filter fun m =>
    (m.userId = a ∨ m.userId = b) ∧ (db.channel? m.channelId).any (·.type = .direct)

/-- The groups of those rows with `COUNT(DISTINCT userId) = 2`. -/
def Db.directChannels (db : Db) (a b : Uuid) : List Uuid :=
  ((db.directRows a b).map (·.channelId)).dedup.filter fun c =>
    (((db.directRows a b).filter (·.channelId = c)).map (·.userId)).dedup.length = 2

def CreateArgs.channelRow (a : CreateArgs) (id : Uuid) : ChannelRow where
  id := id
  name := a.name
  type := a.type
  isArchived := false
  lastMessageId := none
  lastMessageAt := none
  createdAt := a.startedAt

def newMembership (id userId channelId : Uuid) (role : Role) (joinedAt : ℕ) : MembershipRow where
  id := id
  role := role
  joinedAt := joinedAt
  lastReadMessageId := none
  userId := userId
  channelId := channelId

/-- The membership rows of `insertChannel`, with ids drawn by the database. -/
def CreateArgs.membershipRows (a : CreateArgs) (c : Uuid) (ids : List Uuid) : List MembershipRow :=
  newMembership (ids.headD 0) a.userId c .admin a.startedAt::
    a.others.mapIdx fun i u => newMembership (ids.getD (i+1) 0) u c .member a.startedAt

inductive Create
  | find (input : CreateInput)
  | begin (a : CreateArgs)
  | lockPair (a : CreateArgs)
  | existing (a : CreateArgs)
  | summary (a : CreateArgs) (channelId : Uuid)
  | insertChannel (a : CreateArgs)
  | insertMemberships (a : CreateArgs) (channel : ChannelRow)
  | commit (a : CreateArgs) (channel : Option ChannelRow) (created : Bool)
  | rollback (err : DbError)
  | store (a : CreateArgs) (channel : ChannelRow)
  | join (a : CreateArgs) (channel : ChannelRow) (created : Bool)
  | emit (a : CreateArgs) (channel : ChannelRow)
  | client (a : CreateArgs) (channel : ChannelRow) (created : Bool)
  | done (a : CreateArgs) (channel : ChannelRow) (created : Bool)
  | failed (err : HttpError)
  deriving DecidableEq, Repr

namespace Create

def statement (w : World) (next : Create) : Option (Except DbError Postgres) → Option (Create × World)
  | none => none
  | some (.error err) => some (.rollback err,w)
  | some (.ok pg) => some (next,{ w with pg := pg })

def step (x : Externals) (p : ℕ) (ch : Choice) (w : World) : Create → Option (Create × World)
  | .find input =>
    match checkParticipants input with
    | .error err => some (.failed err,w)
    | .ok a =>
      if ch.fail then some (.failed (.database aborted),w)
      else if (w.pg.db.activeAmong a.others).length ≠ a.others.length then
        some (.failed (.notFound "One or more participants do not exist"),w)
      else some (.begin a,w)
  | .begin a =>
    let a := { a with startedAt := ch.now }
    some (match a.type with
      | .direct => .lockPair a
      | .group => .insertChannel a,w)
  | .lockPair a =>
    if ch.fail then some (.rollback aborted,w)
    else statement w (.existing a)
      ((w.pg.acquire p [(.advisory (x.dmLockKey a.pair.1 a.pair.2),.update)]).map .ok)
  | .existing a =>
    if ch.fail then some (.rollback aborted,w)
    else match Db.pick ch.pick ((w.pg.view p).directChannels a.pair.1 a.pair.2) with
      | some c => some (.summary a c,w)
      | none => some (.insertChannel a,w)
  | .summary a c =>
    if ch.fail then some (.rollback aborted,w)
    else some (.commit a ((w.pg.view p).channel? c) false,w)
  | .insertChannel a =>
    if ch.fail then some (.rollback aborted,w)
    else
      let channel := a.channelRow (ch.ids.headD 0)
      statement w (.insertMemberships a channel) (insertChannelRow w.pg p channel)
  | .insertMemberships a channel =>
    if ch.fail then some (.rollback aborted,w)
    else statement w (.commit a (some channel) true)
      (ZevraServer.insertMemberships w.pg p (a.membershipRows channel.id ch.ids))
  | .commit a channel created =>
    if ch.fail then some (.rollback aborted,w)
    else
      let w := { w with pg := w.pg.commit p }
      match channel with
      | none => some (.failed .typeError,w)
      | some channel => some (if created then .store a channel else .join a channel false,w)
  | .rollback err => some (.failed (.database err),{ w with pg := w.pg.rollback p })
  | .store a channel =>
    some (.join a channel true,
      if ch.fail then w else { w with redis := w.redis.setMembers channel.id a.memberIds })
  | .join a channel created =>
    let ids := if created then a.memberIds else [a.userId]
    some (if created then .emit a channel else .client a channel false,
      w.socketsJoin (ids.map .user) channel.id)
  | .emit a channel =>
    some (.client a channel true,
      w.emit (a.memberIds.map .user) none (.channelCreated channel.id a.memberIds a.userId))
  | .client a channel created =>
    some (.done a channel created,
      match a.socket with
      | none => w
      | some s => w.onSocket s a.userId (·.join [.channel channel.id]))
  | .done _ _ _ => none
  | .failed _ => none

end Create

/-! ### `addMember` -/

structure AddArgs where
  channelId : Uuid
  requesterId : Uuid
  newUserId : Uuid
  role : Option Role
  deriving DecidableEq, Repr

inductive AddMember
  | role (a : AddArgs)
  | channel (a : AddArgs)
  | user (a : AddArgs)
  | count (a : AddArgs)
  | insert (a : AddArgs)
  | touch (a : AddArgs)
  | invalidate (a : AddArgs)
  | join (a : AddArgs)
  | emit (a : AddArgs)
  | done (a : AddArgs)
  | failed (err : HttpError)
  deriving DecidableEq, Repr

namespace AddMember

/-- A query outside a transaction, which may fail. -/
def query (ch : Choice) (w : World) (next : AddMember) : Option (AddMember × World) :=
  some (if ch.fail then .failed (.database aborted) else next,w)

def step (p : ℕ) (ch : Choice) (w : World) : AddMember → Option (AddMember × World)
  | .role a =>
    query ch w (if (w.pg.db.membership? a.requesterId a.channelId).any (·.role = .admin) then .channel a
      else .failed (.forbidden "Only admins can add members"))
  | .channel a =>
    query ch w (match w.pg.db.channel? a.channelId with
      | none => .failed (.notFound "Channel not found")
      | some c =>
        if c.type ≠ .group then .failed (.badRequest "Members can only be added to group channels")
        else .user a)
  | .user a =>
    query ch w (if (w.pg.db.activeAmong [a.newUserId]).isEmpty then .failed (.notFound "User not found")
      else .count a)
  | .count a =>
    query ch w (if MAX_CHANNEL_PARTICIPANTS+1 ≤ (w.pg.db.membershipsOf a.channelId).length then
        .failed (.badRequest "Channel is full")
      else .insert a)
  | .insert a =>
    if ch.fail then some (.failed (.database aborted),w)
    else match insertMembershipOrNothing w.pg p
        (newMembership (ch.ids.headD 0) a.newUserId a.channelId (a.role.getD .member) ch.now) with
      | none => none
      | some (.error err) => some (.failed (.database err),w)
      | some (.ok (pg,inserted)) =>
        some (if inserted then .touch a else .failed (.conflict "User is already a member"),
          { w with pg := pg })
  | .touch a =>
    if ch.fail then some (.failed (.database aborted),w)
    else (touchChannel w.pg p a.channelId).map fun pg => (.invalidate a,{ w with pg := pg })
  | .invalidate a =>
    some (.join a,if ch.fail then w else { w with redis := w.redis.invalidate a.channelId })
  | .join a => some (.emit a,w.socketsJoin [.user a.newUserId] a.channelId)
  | .emit a =>
    some (.done a,w.emit [.channel a.channelId,.user a.newUserId] none
      (.memberAdded a.channelId a.newUserId))
  | .done _ => none
  | .failed _ => none

end AddMember

/-! ### `removeMember` -/

structure RemoveArgs where
  channelId : Uuid
  requesterId : Uuid
  targetUserId : Uuid
  deriving DecidableEq, Repr

inductive RemoveMember
  | role (a : RemoveArgs)
  | lock (a : RemoveArgs)
  | delete (a : RemoveArgs)
  | admin (a : RemoveArgs)
  | oldest (a : RemoveArgs)
  | promote (a : RemoveArgs) (oldest : MembershipRow)
  | touch (a : RemoveArgs) (promoted : Option Uuid)
  | commit (a : RemoveArgs) (promoted : Option Uuid)
  | rollback (err : HttpError)
  | cleanup (a : RemoveArgs) (promoted : Option Uuid) (invalidated reset : Bool)
  | emit (a : RemoveArgs) (promoted : Option Uuid)
  | leave (a : RemoveArgs) (promoted : Option Uuid)
  | done (a : RemoveArgs) (promoted : Option Uuid)
  | failed (err : HttpError)
  deriving DecidableEq, Repr

namespace RemoveMember

def statement (w : World) (next : RemoveMember) : Option Postgres → Option (RemoveMember × World)
  | none => none
  | some pg => some (next,{ w with pg := pg })

/-- After both commands of the `Promise.all`. -/
def joinCleanup (a : RemoveArgs) (promoted : Option Uuid) (invalidated reset : Bool) : RemoveMember :=
  if invalidated && reset then .emit a promoted else .cleanup a promoted invalidated reset

/-- `ORDER BY joinedAt LIMIT 1` over the rows of the channel. -/
def longestStanding (db : Db) (c : Uuid) : List MembershipRow :=
  Db.firsts (fun a b => a.joinedAt ≤ b.joinedAt) (db.membershipsOf c)

/-- The lock query and the deletion are two statements; a channel whose row is missing at
the first has no membership row for the second, since the database draws channel ids at
random. -/
def step (p : ℕ) (ch : Choice) (w : World) : RemoveMember → Option (RemoveMember × World)
  | .role a =>
    if a.requesterId = a.targetUserId then some (.lock a,w)
    else if ch.fail then some (.failed (.database aborted),w)
    else if (w.pg.db.membership? a.requesterId a.channelId).any (·.role = .admin) then some (.lock a,w)
    else some (.failed (.forbidden "Only admins can remove members"),w)
  | .lock a =>
    if ch.fail then some (.rollback (.database aborted),w)
    else if w.pg.db.channel? a.channelId = none then
      some (.rollback (.notFound "Member not found in channel"),w)
    else statement w (.delete a) (lockChannel w.pg p a.channelId)
  | .delete a =>
    if ch.fail then some (.rollback (.database aborted),w)
    else match (w.pg.view p).membership? a.targetUserId a.channelId with
      | none => some (.rollback (.notFound "Member not found in channel"),w)
      | some r =>
        statement w (if r.role = .admin then .admin a else .touch a none)
          (w.pg.statement p [(.membership r.id,.update)] [.deleteMembership a.targetUserId a.channelId])
  | .admin a =>
    if ch.fail then some (.rollback (.database aborted),w)
    else if ((w.pg.view p).membershipsOf a.channelId).any (·.role = .admin) then
      some (.touch a none,w)
    else some (.oldest a,w)
  | .oldest a =>
    if ch.fail then some (.rollback (.database aborted),w)
    else some (match Db.pick ch.pick (longestStanding (w.pg.view p) a.channelId) with
      | none => .touch a none
      | some r => .promote a r,w)
  | .promote a r =>
    if ch.fail then some (.rollback (.database aborted),w)
    else statement w (.touch a (some r.userId))
      (w.pg.statement p [(.membership r.id,.noKeyUpdate)] [.setRole r.id r.channelId .admin])
  | .touch a promoted =>
    if ch.fail then some (.rollback (.database aborted),w)
    else statement w (.commit a promoted) (w.pg.acquire p [(.channel a.channelId,.noKeyUpdate)])
  | .commit a promoted =>
    if ch.fail then some (.rollback (.database aborted),w)
    else some (.cleanup a promoted false false,{ w with pg := w.pg.commit p })
  | .rollback err => some (.failed err,{ w with pg := w.pg.rollback p })
  | .cleanup a promoted invalidated reset =>
    if ch.side then
      if invalidated then none
      else some (joinCleanup a promoted true reset,
        if ch.fail then w else { w with redis := w.redis.invalidate a.channelId })
    else
      if reset then none
      else some (joinCleanup a promoted invalidated true,
        if ch.fail then w else { w with redis := w.redis.resetUnread a.targetUserId a.channelId })
  | .emit a promoted =>
    some (.leave a promoted,w.emit [.channel a.channelId,.user a.targetUserId] none
      (.memberRemoved a.channelId a.targetUserId))
  | .leave a promoted =>
    some (.done a promoted,w.socketsLeave (.user a.targetUserId) a.channelId)
  | .done _ _ => none
  | .failed _ => none

end RemoveMember

end ZevraServer
