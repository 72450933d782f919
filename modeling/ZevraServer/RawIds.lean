import ZevraServer.Channels

/-!
# Identifiers as they are written

Requests carry UUIDs as text, and the validators accept both letter cases. Postgres
reads the text as a value and writes values in lower case; Redis keys, rooms and the
comparisons of the program use the text as it came. Here the tables hold values, as
everywhere, while keys, rooms and arguments are strings. A call runs from its first
command to its last, and no statement fails for a reason of its own: interleavings
and failures are the subject of the other modules. Emitted events and LiveKit are
left out.
-/

namespace ZevraServer

/-- A UUID as a request spells it. -/
abbrev RawId := String

def hexDigits : List Char :=
  ['0','1','2','3','4','5','6','7','8','9','a','b','c','d','e','f']

/-- The value Postgres reads, in either case. -/
def Uuid.ofText (s : RawId) : Uuid :=
  (s.toLower.toList.filter (· ≠ '-')).foldl (fun n d => 16*n+hexDigits.idxOf d) 0

/-- The 32 digits of a value. -/
def Uuid.digits (u : Uuid) : List Char :=
  (List.range 32).map fun i => hexDigits.getD (u/16^(31-i) % 16) '0'

/-- The text Postgres writes. -/
def Uuid.text (u : Uuid) : RawId :=
  let d := Uuid.digits u
  String.ofList (d.take 8++ '-'::(d.drop 8).take 4++ '-'::(d.drop 12).take 4++ '-'::
    (d.drop 16).take 4++ '-'::d.drop 20)

/-- `UUID_RE.test(value)`; the flag `i` of the pattern makes it blind to case. -/
def isUuid (s : RawId) : Bool :=
  let cs := s.toLower.toList
  cs.length = 36 && cs.zipIdx.all fun d => if d.2 ∈ [8,13,18,23] then d.1 = '-' else d.1 ∈ hexDigits

namespace Raw

/-! ### State -/

/-- `user:{id}` and `channel:{id}`. -/
inductive Room
  | user (id : RawId)
  | channel (id : RawId)
  deriving DecidableEq, Repr

/-- A socket, with `client.data.user.id`. -/
structure Socket where
  id : ℕ
  user : RawId
  rooms : List Room
  deriving DecidableEq, Repr

/-- The hash under `zevra:call:room:{callId}`. -/
structure ActiveCall where
  initiatorId : RawId
  targetId : RawId
  status : String
  startedAt : ℕ
  callLogId : Uuid
  deriving DecidableEq, Repr

/-- `presence` says which keys hold `online`. -/
structure Redis where
  channelMembers : RawId → List RawId
  unread : RawId → RawId → ℕ
  presence : RawId → Bool
  userCall : RawId → Option Uuid
  callRoom : Uuid → Option ActiveCall

inductive CallType
  | webrtc | livekit
  deriving DecidableEq, Repr

/-- A row of `call_logs`; `roomName` is a text column. -/
structure CallLogRow where
  id : Uuid
  type : CallType
  callerId : Uuid
  calleeId : Option Uuid
  roomName : Option String
  channelId : Option Uuid
  status : String
  deriving DecidableEq, Repr

/-- A row of `message_reads`. -/
structure ReadRow where
  messageId : Uuid
  userId : Uuid
  readAt : ℕ
  deriving DecidableEq, Repr

structure State where
  db : Db
  reads : List ReadRow
  callLogs : List CallLogRow
  redis : Redis
  sockets : List Socket
  connections : ℕ

/-- What a call finds around it: whether Redis answers, what the rate limiter says, whether
LiveKit is configured, the random UUIDs drawn, the clock, and the row an unordered
`LIMIT 1` returns. -/
structure Setting where
  redis : Bool
  allowed : Bool
  livekit : Bool
  ids : List Uuid
  now : ℕ
  pick : ℕ

/-- Why a call is refused. -/
inductive Refusal
  | http (err : HttpError)
  | socket (code message : String)
  deriving DecidableEq, Repr

def Socket.join (s : Socket) (r : Room) : Socket :=
  if r ∈ s.rooms then s else { s with rooms := s.rooms++[r] }

def Socket.leave (s : Socket) (r : Room) : Socket := { s with rooms := s.rooms.filter (· ≠ r) }

namespace State

variable (e : Setting) (σ : State)

def socket? (s : ℕ) : Option Socket := σ.sockets.find? fun k => k.id = s

def onSocket (s : ℕ) (f : Socket → Socket) : State :=
  { σ with sockets := σ.sockets.map fun k => if k.id = s then f k else k }

/-! ### `ChannelMembersService` and the other Redis services -/

def setMembers (channelId : RawId) (userIds : List RawId) : State :=
  if e.redis && !userIds.isEmpty then
    { σ with redis.channelMembers := Function.update σ.redis.channelMembers channelId userIds.dedup }
  else σ

def invalidate (channelId : RawId) : State :=
  if e.redis then
    { σ with redis.channelMembers := Function.update σ.redis.channelMembers channelId [] }
  else σ

def getMembers (channelId : RawId) : List RawId × State :=
  if e.redis && !(σ.redis.channelMembers channelId).isEmpty then (σ.redis.channelMembers channelId,σ)
  else
    let members := (σ.db.memberIds (.ofText channelId)).map Uuid.text
    (members,σ.setMembers e channelId members)

def isMember (channelId userId : RawId) : Bool × State :=
  if e.redis then
    if !(σ.redis.channelMembers channelId).isEmpty then
      ((σ.redis.channelMembers channelId).contains userId,σ)
    else
      let r := σ.getMembers e channelId
      (r.1.contains userId,r.2)
  else ((σ.db.membership? (.ofText userId) (.ofText channelId)).isSome,σ)

def resetUnread (userId channelId : RawId) : State :=
  if e.redis then
    { σ with redis.unread := fun u c => if u = userId ∧ c = channelId then 0 else σ.redis.unread u c }
  else σ

def isOnline (userId : RawId) : Bool := e.redis && σ.redis.presence userId

/-! ### `SocketService` -/

def joinUsersToChannel (userIds : List RawId) (channelId : RawId) : State :=
  { σ with
    sockets := σ.sockets.map fun s =>
      if ∃ u ∈ userIds, .user u ∈ s.rooms then s.join (.channel channelId) else s }

def removeUserFromChannel (userId channelId : RawId) : State :=
  { σ with
    sockets := σ.sockets.map fun s =>
      if .user userId ∈ s.rooms then s.leave (.channel channelId) else s }

/-! ### `ChannelsService` -/

def getRole (channelId userId : RawId) : Option Role :=
  (σ.db.membership? (.ofText userId) (.ofText channelId)).map (·.role)

/-- `insertChannel`, as one transaction. -/
def insertChannel (a : CreateArgs) (db : Db) : Except DbError (Db × Uuid) :=
  let id := e.ids.headD 0
  let rows := a.membershipRows id e.ids.tail
  if ∃ r ∈ db.channels, r.id = id then .error (uniqueViolation "channels_pkey")
  else
    let db := db.apply (.insertChannel (a.channelRow id))
    match membershipsViolation db rows with
    | some err => .error err
    | none => .ok (rows.foldl (fun db m => db.apply (.insertMembership m)) db,id)

/-- The arguments of `create` as the statements see them. -/
def createArgs (userId : RawId) (others : List RawId) (type : ChannelType) (name : Option String)
    (socket : Option ℕ) : CreateArgs where
  userId := .ofText userId
  others := others.map .ofText
  type := type
  name := if type = .direct then none else nameOrNull name
  socket := socket
  startedAt := e.now

/-- `client.join(channelRoom(channel.id))` of `create-or-join`. -/
def joinClient (socket : Option ℕ) (channelId : RawId) : State :=
  match socket with
  | none => σ
  | some s => σ.onSocket s (·.join (.channel channelId))

/-- The channel `createDirect` finds. -/
def existingDirect (a : CreateArgs) : Option Uuid :=
  if a.type = .direct then Db.pick e.pick (σ.db.directChannels a.pair.1 a.pair.2) else none

/-- `create` after its checks. The advisory lock of a direct pair has no effect on a call
that runs alone. -/
def createChecked (userId : RawId) (others : List RawId) (type : ChannelType) (name : Option String)
    (socket : Option ℕ) : State × Option Refusal :=
  let a := createArgs e userId others type name socket
  if (σ.db.activeAmong a.others).length ≠ others.length then
    (σ,some (.http (.notFound "One or more participants do not exist")))
  else
    match σ.existingDirect e a with
    | some c =>
      if (σ.db.channel? c).isNone then (σ,some (.http .typeError))
      else ((σ.joinUsersToChannel [userId] (Uuid.text c)).joinClient socket (Uuid.text c),none)
    | none =>
      match insertChannel e a σ.db with
      | .error err => (σ,some (.http (.database err)))
      | .ok (db,id) =>
        let σ := ({ σ with db := db } : State).setMembers e (Uuid.text id) (userId::others)
        ((σ.joinUsersToChannel (userId::others) (Uuid.text id)).joinClient socket (Uuid.text id),none)

def create (userId : RawId) (participantIds : List RawId) (type : Option ChannelType)
    (name : Option String) (socket : Option ℕ) : State × Option Refusal :=
  match checkParticipantIds userId participantIds type with
  | .error err => (σ,some (.http err))
  | .ok (t,others) => σ.createChecked e userId others t name socket

def addMember (channelId requesterId newUserId : RawId) (role : Option Role) :
    State × Option Refusal :=
  let c := Uuid.ofText channelId
  let u := Uuid.ofText newUserId
  if σ.getRole channelId requesterId ≠ some .admin then
    (σ,some (.http (.forbidden "Only admins can add members")))
  else match σ.db.channel? c with
    | none => (σ,some (.http (.notFound "Channel not found")))
    | some channel =>
      let m := newMembership (e.ids.headD 0) u c (role.getD .member) e.now
      if channel.type ≠ .group then
        (σ,some (.http (.badRequest "Members can only be added to group channels")))
      else if (σ.db.activeAmong [u]).isEmpty then (σ,some (.http (.notFound "User not found")))
      else if MAX_CHANNEL_PARTICIPANTS+1 ≤ (σ.db.membershipsOf c).length then
        (σ,some (.http (.badRequest "Channel is full")))
      else if ∃ r ∈ σ.db.memberships, r.userId = u ∧ r.channelId = c then
        (σ,some (.http (.conflict "User is already a member")))
      else match membershipViolation σ.db m with
        | some err => (σ,some (.http (.database err)))
        | none =>
          let σ := ({ σ with db := σ.db.apply (.insertMembership m) } : State).invalidate e channelId
          (σ.joinUsersToChannel [newUserId] channelId,none)

/-- The rows after the transaction of `removeMember`. -/
def removeRow (removed : MembershipRow) (u c : Uuid) (db : Db) : Db :=
  let db := db.apply (.deleteMembership u c)
  if removed.role = .admin ∧ ¬((db.membershipsOf c).any (·.role = .admin)) then
    match Db.pick e.pick (RemoveMember.longestStanding db c) with
    | none => db
    | some oldest => db.apply (.setRole oldest.id oldest.channelId .admin)
  else db

def removeMember (channelId requesterId targetUserId : RawId) : State × Option Refusal :=
  let c := Uuid.ofText channelId
  let u := Uuid.ofText targetUserId
  if requesterId ≠ targetUserId ∧ σ.getRole channelId requesterId ≠ some .admin then
    (σ,some (.http (.forbidden "Only admins can remove members")))
  else match σ.db.membership? u c with
    | none => (σ,some (.http (.notFound "Member not found in channel")))
    | some removed =>
      let σ := ({ σ with db := removeRow e removed u c σ.db } : State).invalidate e channelId
      ((σ.resetUnread e targetUserId channelId).removeUserFromChannel targetUserId channelId,none)

/-- The watermark of the row moves to the message, as the two comparisons of `markRead`
have it. -/
def advances (row : MembershipRow) (target : MessageRow) : Bool :=
  let current := (row.lastReadMessageId.bind σ.db.message?).map (·.sequenceNumber)
  (current.all (· < target.sequenceNumber)) &&
    (row.lastReadMessageId.isNone || current.getD 0 < target.sequenceNumber)

/-- `ON CONFLICT DO NOTHING`. -/
def insertRead (r : ReadRow) : State :=
  if ∃ k ∈ σ.reads, k.messageId = r.messageId ∧ k.userId = r.userId then σ
  else { σ with reads := σ.reads++[r] }

def markRead (userId channelId messageId : RawId) : State × Option Refusal :=
  let u := Uuid.ofText userId
  let c := Uuid.ofText channelId
  let m := Uuid.ofText messageId
  match σ.db.membership? u c with
  | none => (σ,some (.http (.forbidden "Not a member of this channel")))
  | some row =>
    match σ.db.messages.find? fun k => k.id = m ∧ k.channelId = c with
    | none => (σ,some (.http (.notFound "Message not found in this channel")))
    | some target =>
      if σ.advances row target then
        let σ := ({ σ with db := σ.db.apply (.setLastRead row.id m) } : State).resetUnread e userId channelId
        (σ.insertRead ⟨m,u,e.now⟩,none)
      else (σ.resetUnread e userId channelId,none)

/-! ### The gateways -/

def requireMember (channelId userId : RawId) : State × Option Refusal :=
  let r := σ.isMember e channelId userId
  (r.2,if r.1 then none else some (.socket "NOT_MEMBER" "Not a member of this channel"))

/-- `join-channel` and `leave-channel` of a connected socket. -/
def moveRoom (s : ℕ) (channelId : RawId) (move : Socket → Room → Socket) : State × Option Refusal :=
  match σ.socket? s with
  | none => (σ,none)
  | some k =>
    match σ.requireMember e channelId k.user with
    | (σ,some err) => (σ,some err)
    | (σ,none) => (σ.onSocket s (move · (.channel channelId)),none)

def handleJoinChannel (s : ℕ) (channelId : RawId) : State × Option Refusal :=
  σ.moveRoom e s channelId Socket.join

def handleLeaveChannel (s : ℕ) (channelId : RawId) : State × Option Refusal :=
  σ.moveRoom e s channelId Socket.leave

def getActiveCall (userId : RawId) : Option ActiveCall :=
  if e.redis then (σ.redis.userCall userId).bind σ.redis.callRoom else none

/-- `createCallLog`; a row that references no user or no channel is refused. -/
def createCallLog (type : CallType) (initiatorId : RawId) (calleeId : Option RawId)
    (roomName : Option String) (channelId : Option RawId) : Except DbError (State × Uuid) :=
  let callee := calleeId.map Uuid.ofText
  let channel := channelId.map Uuid.ofText
  if (σ.db.user? (.ofText initiatorId)).isNone then
    .error (foreignKeyViolation "call_logs_caller_id_users_id_fk")
  else if callee.any fun u => (σ.db.user? u).isNone then
    .error (foreignKeyViolation "call_logs_callee_id_users_id_fk")
  else if channel.any fun c => (σ.db.channel? c).isNone then
    .error (foreignKeyViolation "call_logs_channel_id_channels_id_fk")
  else
    let id := e.ids.headD 0
    .ok ({ σ with callLogs := σ.callLogs++[⟨id,type,.ofText initiatorId,callee,roomName,channel,"missed"⟩] },id)

def createCall (initiatorId targetId : RawId) (callLogId : Uuid) : State :=
  let callId := e.ids.getD 1 0
  if e.redis then
    { σ with
      redis.callRoom := Function.update σ.redis.callRoom callId
        (some ⟨initiatorId,targetId,"ringing",e.now,callLogId⟩)
      redis.userCall := Function.update (Function.update σ.redis.userCall initiatorId (some callId))
        targetId (some callId) }
  else σ

/-- The part `call:invite` and a direct `call:initiate` share. -/
def ring (userId targetId : RawId) (channelId : Option RawId) : State × Option Refusal :=
  if (σ.getActiveCall e targetId).isSome then (σ,some (.socket "TARGET_BUSY" "User is busy"))
  else if !σ.isOnline e targetId then (σ,some (.socket "TARGET_OFFLINE" "User is offline"))
  else match σ.createCallLog e .webrtc userId (some targetId) none channelId with
    | .error err => (σ,some (.http (.database err)))
    | .ok (σ,callLogId) => (σ.createCall e userId targetId callLogId,none)

def handleInvite (s : ℕ) (targetUserId : RawId) : State × Option Refusal :=
  match σ.socket? s with
  | none => (σ,none)
  | some k =>
    if !isUuid targetUserId || targetUserId = k.user then
      (σ,some (.socket "VALIDATION_ERROR" "targetUserId must be a valid user id"))
    else if !e.allowed then (σ,some (.socket "RATE_LIMITED" "Too many call attempts"))
    else if (σ.getActiveCall e k.user).isSome then
      (σ,some (.socket "ALREADY_IN_CALL" "You are already in a call"))
    else σ.ring e k.user targetUserId none

def getGroupRoomName (channelId : RawId) : String := "group-" ++ channelId

/-- `initiateLiveKitGroupCall`. The targets only receive invitations. -/
def initiateLiveKitGroupCall (userId channelId : RawId) : State × Option Refusal :=
  if !e.livekit then (σ,some (.socket "LIVEKIT_NOT_CONFIGURED" "Calls are not available"))
  else match σ.createCallLog e .livekit userId none (some (getGroupRoomName channelId)) (some channelId) with
    | .error err => (σ,some (.http (.database err)))
    | .ok (σ,_) => (σ,none)

def MAX_GROUP_TARGETS : ℕ := 50

/-- `call:initiate`; the first argument after the socket says whether `type` is `GROUP`.
`authorizeRoomAccess` of a group room reads the membership row. -/
def handleInitiate (s : ℕ) (group : Bool) (targetUserIds : List RawId) (channelId : Option RawId) :
    State × Option Refusal :=
  match σ.socket? s with
  | none => (σ,none)
  | some k =>
    if MAX_GROUP_TARGETS < targetUserIds.length ∨ ¬(targetUserIds.all isUuid) then
      (σ,some (.socket "VALIDATION_ERROR" "targetUserIds must be a list of user ids"))
    else if !(channelId.all isUuid) then
      (σ,some (.socket "VALIDATION_ERROR" "channelId must be a valid id"))
    else if !e.allowed then (σ,some (.socket "RATE_LIMITED" "Too many call attempts"))
    else if (σ.getActiveCall e k.user).isSome then
      (σ,some (.socket "ALREADY_IN_CALL" "You are already in a call"))
    else if group then
      match channelId with
      | none => (σ,some (.socket "CHANNEL_REQUIRED" "channelId is required"))
      | some c =>
        if (σ.db.membership? (.ofText k.user) (.ofText c)).isNone then
          (σ,some (.socket "NOT_MEMBER" "Not a member of this channel"))
        else σ.initiateLiveKitGroupCall e k.user c
    else
      match targetUserIds.head? with
      | none => (σ,some (.socket "NO_TARGET" "A target user is required"))
      | some t =>
        if t = k.user then (σ,some (.socket "NO_TARGET" "A target user is required"))
        else σ.ring e k.user t channelId

/-! ### Around the calls -/

/-- `handleConnection` of a verified user: the socket joins its rooms and the user is
online. -/
def handleConnection (u : Uuid) : State :=
  if (σ.db.user? u).isNone then σ
  else
    { σ with
      sockets := σ.sockets++[⟨σ.connections,Uuid.text u,
        .user (Uuid.text u)::(σ.db.channelIdsOf u).map fun c => .channel (Uuid.text c)⟩]
      connections := σ.connections+1
      redis.presence := if e.redis then Function.update σ.redis.presence (Uuid.text u) true
        else σ.redis.presence }

/-- A committed message and what its delivery does to the member cache and the counters. -/
def deliver (m : MessageRow) : State :=
  if (messageViolation σ.db m).isSome then σ
  else
    let r := ({ σ with db := σ.db.apply (.insertMessage m) } : State).getMembers e (Uuid.text m.channelId)
    if e.redis then
      { r.2 with
        redis.unread := fun u c => if c = Uuid.text m.channelId then
          r.2.redis.unread u c+(r.1.filter (· ≠ Uuid.text m.senderId)).count u else r.2.redis.unread u c }
    else r.2

end State

/-- The operations whose arguments a request spells. Requests without a user argument come
from a socket, whose user Postgres has spelled. -/
inductive Op
  | create (userId : RawId) (participantIds : List RawId) (type : Option ChannelType)
      (name : Option String) (socket : Option ℕ)
  | addMember (channelId requesterId newUserId : RawId) (role : Option Role)
  | removeMember (channelId requesterId targetUserId : RawId)
  | markRead (userId channelId messageId : RawId)
  | joinChannel (socket : ℕ) (channelId : RawId)
  | invite (socket : ℕ) (targetUserId : RawId)
  | initiate (socket : ℕ) (group : Bool) (targetUserIds : List RawId) (channelId : Option RawId)
  deriving DecidableEq, Repr

def Op.run (e : Setting) (σ : State) : Op → State × Option Refusal
  | .create u ids type name socket => σ.create e u ids type name socket
  | .addMember c r u role => σ.addMember e c r u role
  | .removeMember c r u => σ.removeMember e c r u
  | .markRead u c m => σ.markRead e u c m
  | .joinChannel s c => σ.handleJoinChannel e s c
  | .invite s t => σ.handleInvite e s t
  | .initiate s group ts c => σ.handleInitiate e s group ts c

/-- The operations, and what else changes the state. -/
inductive Action
  | op (o : Op)
  | connect (userId : Uuid)
  | disconnect (socket : ℕ)
  | leaveChannel (socket : ℕ) (channelId : RawId)
  | send (m : MessageRow)
  | expireMembers (channelId : RawId)
  | expirePresence (userId : RawId)
  | expireCall (callId : Uuid)

def Action.run (e : Setting) (σ : State) : Action → State
  | .op o => (o.run e σ).1
  | .connect u => σ.handleConnection e u
  | .disconnect s => { σ with sockets := σ.sockets.filter fun k => k.id ≠ s }
  | .leaveChannel s c => (σ.handleLeaveChannel e s c).1
  | .send m => σ.deliver e m
  | .expireMembers c =>
    { σ with redis.channelMembers := Function.update σ.redis.channelMembers c [] }
  | .expirePresence u => { σ with redis.presence := Function.update σ.redis.presence u false }
  | .expireCall i => { σ with redis.callRoom := Function.update σ.redis.callRoom i none }

/-- One action after the other. -/
def State.after (σ : State) (as : List (Setting × Action)) : State :=
  as.foldl (fun σ a => a.2.run a.1 σ) σ

end Raw

end ZevraServer
