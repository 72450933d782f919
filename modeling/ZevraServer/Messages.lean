import ZevraServer.Members

/-!
# `MessagesService`: sending, delivery and deletion

`send` and `deleteMessage` run a Postgres transaction and then work on Redis and
the sockets; `runMessageDelivery` runs in a queue worker or inline. A constructor
of a machine is the next awaited statement or command of the call.
-/

namespace ZevraServer

open ReadCommitted

def MAX_ENCRYPTED_CONTENT_BYTES : ℕ := 10*1024
def MAX_METADATA_BYTES : ℕ := 64*1024
def MAX_SEQUENCE_RETRIES : ℕ := 3
def PENDING_BATCH_SIZE : ℕ := 100

def MESSAGE_TYPES : List String := ["TEXT","IMAGE","FILE","SYSTEM"]

/-- The `metadata` argument: undefined, null, an object with its JSON text, or a value
that is not an object. -/
inductive MetadataArg
  | undefined
  | null
  | object (json : String)
  | other
  deriving DecidableEq, Repr

def MetadataArg.column : MetadataArg → Option String
  | .object json => some json
  | _ => none

structure SendMessageInput where
  userId : Uuid
  channelId : Uuid
  encryptedContent : String
  contentIv : String
  contentTag : String
  signature : String
  senderKeyEpoch : ℕ
  messageType : Option String
  metadata : MetadataArg
  deriving DecidableEq, Repr

/-- The length of a JavaScript string, in UTF-16 units. -/
def utf16Length (s : String) : ℕ := (s.toList.map fun c => if c.toNat < 0x10000 then 1 else 2).sum

def assertSendLimits (input : SendMessageInput) : Except HttpError Unit := do
  if input.encryptedContent.isEmpty then
    throw (.badRequest "encryptedContent is required")
  if MAX_ENCRYPTED_CONTENT_BYTES < input.encryptedContent.utf8ByteSize then
    throw (.payloadTooLarge "Message exceeds 10KB limit")
  if input.contentIv.isEmpty ∨ 32 < utf16Length input.contentIv ∨
      input.contentTag.isEmpty ∨ 32 < utf16Length input.contentTag then
    throw (.badRequest "contentIv and contentTag must be 1-32 characters")
  if input.messageType.any (· ∉ MESSAGE_TYPES) then
    throw (.badRequest "Invalid messageType")
  match input.metadata with
  | .undefined | .null => pure ()
  | .other => throw (.badRequest "metadata must be an object")
  | .object json =>
    if MAX_METADATA_BYTES < json.utf8ByteSize then
      throw (.payloadTooLarge "metadata exceeds 64KB limit")

/-- The first query of `send`: the member's user and channel rows, joined. -/
def Db.sender? (db : Db) (u c : Uuid) : Option (UserRow × ChannelRow) := do
  let m ← db.membership? u c
  let user ← db.user? m.userId
  let channel ← db.channel? m.channelId
  return (user,channel)

/-- What `send` does with that row before it opens a transaction: the username, or the
exception thrown. -/
def checkSender (x : Externals) (input : SendMessageInput) :
    Option (UserRow × ChannelRow) → Except HttpError String
  | none => .error (.forbidden "Not a member of this channel")
  | some (user,channel) =>
    if channel.isArchived then .error (.badRequest "Channel is archived")
    else if input.signature ≠ "" ∧ user.publicKeySign ≠ "" ∧
        x.verify input.channelId input.encryptedContent input.signature user.publicKeySign = false then
      .error (.badRequest "Invalid message signature")
    else .ok user.username

/-- One attempt of `insertWithSequence`. -/
structure SendAttempt where
  input : SendMessageInput
  exceptSocketId : Option ℕ
  username : String
  attempt : ℕ
  startedAt : ℕ
  deriving DecidableEq, Repr

/-- The inserted row; `now()` is the start of the transaction. -/
def SendAttempt.row (a : SendAttempt) (id : Uuid) (seq : ℕ) : MessageRow where
  id := id
  messageType := a.input.messageType.getD "TEXT"
  encryptedContent := a.input.encryptedContent
  contentIv := a.input.contentIv
  contentTag := a.input.contentTag
  signature := a.input.signature
  sequenceNumber := seq
  senderKeyEpoch := a.input.senderKeyEpoch
  metadata := a.input.metadata.column
  isDeleted := false
  createdAt := a.startedAt
  senderId := a.input.userId
  channelId := a.input.channelId

/-! ### Delivery -/

/-- `runMessageDelivery`: two Redis commands in either order. -/
structure Delivery where
  job : MessageDeliveryJob
  queued : Bool
  counted : Bool
  deriving DecidableEq, Repr

def Delivery.start (job : MessageDeliveryJob) : Delivery := ⟨job,false,false⟩

def Delivery.finished (d : Delivery) : Bool := d.queued && d.counted

/-- `Date.parse(message.createdAt) || Date.now()`. -/
def pendingScore (ch : Choice) (m : MessagePayload) : ℕ := if m.createdAt = 0 then ch.now else m.createdAt

def Delivery.step (ch : Choice) (w : World) (d : Delivery) : Option (Delivery × World) :=
  if ch.side then
    if d.queued then none
    else if ch.fail then some ({ d with queued := true },w)
    else some ({ d with queued := true },
      { w with redis := w.redis.addPendingMessage d.job.offlineUserIds (pendingScore ch d.job.message) d.job.message })
  else
    if d.counted then none
    else if ch.fail then some ({ d with counted := true },w)
    else some ({ d with counted := true },
      { w with redis := w.redis.incrementUnreadMany d.job.recipientIds d.job.message.channelId })

theorem Delivery.step_pg {ch : Choice} {w w' : World} {d d' : Delivery}
    (h : d.step ch w = some (d',w')) : w'.pg = w.pg := by
  unfold Delivery.step at h
  split_ifs at h
  all_goals
    simp only [Option.some.injEq,Prod.mk.injEq] at h
    rw [← h.2]

/-- The job never changes. -/
theorem Delivery.step_job {ch : Choice} {w w' : World} {d d' : Delivery}
    (h : d.step ch w = some (d',w')) : d'.job = d.job := by
  unfold Delivery.step at h
  split_ifs at h
  all_goals
    simp only [Option.some.injEq,Prod.mk.injEq] at h
    rw [← h.1]

/-- The worker of the `message-delivery` queue. A stalled job goes back to the queue and
is run again. -/
inductive Worker
  | take
  | running (d : Delivery)
  | done (d : Delivery)
  | stalled
  deriving DecidableEq, Repr

def Worker.step (ch : Choice) (w : World) : Worker → Option (Worker × World)
  | .take =>
    match w.queue[ch.pick]? with
    | none => none
    | some job => some (.running (.start job),{ w with queue := w.queue.eraseIdx ch.pick })
  | .running d =>
    if ch.stall then some (.stalled,{ w with queue := w.queue++[d.job] })
    else (d.step ch w).map fun r => (if r.1.finished then .done r.1 else .running r.1,r.2)
  | .done _ => none
  | .stalled => none

/-! ### `send` -/

inductive Send
  | check (input : SendMessageInput) (exceptSocketId : Option ℕ)
  | begin (a : SendAttempt)
  | lock (a : SendAttempt)
  | maxSeq (a : SendAttempt)
  | insert (a : SendAttempt) (seq : ℕ)
  | lastMessage (a : SendAttempt) (msg : MessageRow)
  | lastRead (a : SendAttempt) (msg : MessageRow)
  | commit (a : SendAttempt) (msg : MessageRow)
  | rollback (a : SendAttempt) (err : DbError)
  | lookup (m : MessagePayload) (exceptSocketId : Option ℕ) (members : GetMembers)
      (connected : Option (Option (List Uuid)))
  | emit (m : MessagePayload) (exceptSocketId : Option ℕ) (memberIds : List Uuid)
      (connected : Option (List Uuid))
  | cache (m : MessagePayload) (memberIds : List Uuid) (connected : Option (List Uuid))
  | enqueue (job : MessageDeliveryJob)
  | deliver (d : Delivery)
  | done (m : MessagePayload)
  | failed (err : HttpError)
  deriving DecidableEq, Repr

namespace Send

/-- `Promise.all` of the member lookup and the room snapshot. -/
def joinLookup (m : MessagePayload) (except? : Option ℕ) :
    GetMembers → Option (Option (List Uuid)) → Send
  | .failed err, _ => .failed (.database err)
  | .done ms, some connected => .emit m except? ms connected
  | g, connected => .lookup m except? g connected

/-- `getConnectedUserIds`: the users with a socket in the room. -/
def connectedUserIds (w : World) (c : Uuid) : List Uuid := ((w.inRoom (.channel c)).map (·.user)).dedup

def deliveryJob (m : MessagePayload) (memberIds : List Uuid) (connected : Option (List Uuid)) :
    MessageDeliveryJob where
  message := m
  recipientIds := memberIds.filter (· ≠ m.senderId)
  offlineUserIds := (memberIds.filter (· ≠ m.senderId)).filter fun u =>
    ¬ connected.any (·.contains u)

/-- A statement of the insert transaction; a failed one leads to the rollback. -/
def statement (a : SendAttempt) (w : World) (next : Send) :
    Option (Except DbError Postgres) → Option (Send × World)
  | none => none
  | some (.error err) => some (.rollback a err,w)
  | some (.ok pg) => some (next,{ w with pg := pg })

/-- `UPDATE memberships SET lastReadMessageId WHERE userId AND channelId`. -/
def markOwnRead (pg : Postgres) (p : ℕ) (u c messageId : Uuid) : Option Postgres :=
  match (pg.view p).membership? u c with
  | none => some pg
  | some r => pg.statement p [(.membership r.id,.noKeyUpdate)] [.setLastRead r.id messageId]

def step (x : Externals) (p : ℕ) (ch : Choice) (w : World) : Send → Option (Send × World)
  | .check input except? =>
    match assertSendLimits input with
    | .error err => some (.failed err,w)
    | .ok _ =>
      if ch.fail then some (.failed (.database aborted),w)
      else match checkSender x input (w.pg.db.sender? input.userId input.channelId) with
        | .error err => some (.failed err,w)
        | .ok username => some (.begin ⟨input,except?,username,0,0⟩,w)
  | .begin a => some (.lock { a with startedAt := ch.now },w)
  | .lock a =>
    if ch.fail then some (.rollback a aborted,w)
    else statement a w (.maxSeq a) ((lockChannel w.pg p a.input.channelId).map .ok)
  | .maxSeq a =>
    if ch.fail then some (.rollback a aborted,w)
    else some (.insert a ((w.pg.view p).maxSequence a.input.channelId+1),w)
  | .insert a seq =>
    if ch.fail then some (.rollback a aborted,w)
    else
      let msg := a.row (ch.ids.headD 0) seq
      statement a w (.lastMessage a msg) (insertMessage w.pg p msg)
  | .lastMessage a msg =>
    if ch.fail then some (.rollback a aborted,w)
    else statement a w (.lastRead a msg) ((w.pg.statement p [(.channel a.input.channelId,.noKeyUpdate)]
      [.setLastMessage a.input.channelId (some msg.id) (some msg.createdAt)]).map .ok)
  | .lastRead a msg =>
    if ch.fail then some (.rollback a aborted,w)
    else statement a w (.commit a msg)
      ((markOwnRead w.pg p a.input.userId a.input.channelId msg.id).map .ok)
  | .commit a msg =>
    if ch.fail then some (.rollback a aborted,w)
    else
      let m := toMessagePayload msg (some a.username)
      some (.lookup m a.exceptSocketId (.cached m.channelId) none,{ w with pg := w.pg.commit p })
  | .rollback a err =>
    let w := { w with pg := w.pg.rollback p }
    if x.visibleCode err = some "23505" ∧ a.attempt < MAX_SEQUENCE_RETRIES-1 then
      some (.begin { a with attempt := a.attempt+1 },w)
    else some (.failed (.database err),w)
  | .lookup m except? g connected =>
    if ch.side then
      match connected with
      | some _ => none
      | none =>
        let ids := if ch.fail then none else some (connectedUserIds w m.channelId)
        some (joinLookup m except? g (some ids),w)
    else (g.step ch w).map fun r => (joinLookup m except? r.1 connected,r.2)
  | .emit m except? memberIds connected =>
    some (.cache m memberIds connected,w.emit [.channel m.channelId] except? (.messageNew m))
  | .cache m memberIds connected =>
    let w := if ch.fail then w else { w with redis := w.redis.cacheMessage m.channelId m }
    let job := deliveryJob m memberIds connected
    some (if job.recipientIds.isEmpty then .done m else .enqueue job,w)
  | .enqueue job =>
    if ch.fail then some (.deliver (.start job),w)
    else some (.done job.message,{ w with queue := w.queue++[job] })
  | .deliver d =>
    (d.step ch w).map fun r => (if r.1.finished then .done d.job.message else .deliver r.1,r.2)
  | .done _ => none
  | .failed _ => none

end Send

/-! ### `deleteMessage` -/

inductive DeleteMessage
  | select (userId messageId : Uuid)
  | begin (messageId channelId : Uuid)
  | wipe (messageId channelId : Uuid)
  | reactions (messageId channelId : Uuid)
  | lock (messageId channelId : Uuid)
  | previous (messageId channelId : Uuid)
  | lastMessage (messageId channelId : Uuid) (prev : Option MessageRow)
  | commit (messageId channelId : Uuid)
  | rollback (err : DbError)
  | invalidate (messageId channelId : Uuid)
  | emit (messageId channelId : Uuid)
  | done (messageId channelId : Uuid)
  | failed (err : HttpError)
  deriving DecidableEq, Repr

namespace DeleteMessage

/-- `WHERE channelId AND NOT isDeleted AND id <> messageId ORDER BY sequenceNumber DESC`. -/
def predecessors (db : Db) (m c : Uuid) : List MessageRow :=
  Db.firsts (fun a b => b.sequenceNumber ≤ a.sequenceNumber)
    ((db.messagesOf c).filter fun r => r.isDeleted = false ∧ r.id ≠ m)

def statement (w : World) (next : DeleteMessage) : Option Postgres → Option (DeleteMessage × World)
  | none => none
  | some pg => some (next,{ w with pg := pg })

def wipeRow (pg : Postgres) (p : ℕ) (m : Uuid) : Option Postgres :=
  match (pg.view p).message? m with
  | none => some pg
  | some _ => pg.statement p [(.message m,.noKeyUpdate)] [.wipeMessage m]

def deleteReactions (pg : Postgres) (p : ℕ) (m : Uuid) : Option Postgres :=
  let ids := ((pg.view p).reactions.filter fun r => r.messageId = m).map (·.id)
  pg.statement p (ids.map fun i => (.reaction i,.update)) [.deleteReactions ids]

def step (p : ℕ) (ch : Choice) (w : World) : DeleteMessage → Option (DeleteMessage × World)
  | .select u m =>
    if ch.fail then some (.failed (.database aborted),w)
    else match w.pg.db.message? m with
      | none => some (.failed (.notFound "Message not found"),w)
      | some msg =>
        if msg.senderId ≠ u then
          some (.failed (.forbidden "Can only delete your own messages"),w)
        else if msg.isDeleted then some (.invalidate m msg.channelId,w)
        else some (.begin m msg.channelId,w)
  | .begin m c => some (.wipe m c,w)
  | .wipe m c =>
    if ch.fail then some (.rollback aborted,w)
    else statement w (.reactions m c) (wipeRow w.pg p m)
  | .reactions m c =>
    if ch.fail then some (.rollback aborted,w)
    else statement w (.lock m c) (deleteReactions w.pg p m)
  | .lock m c =>
    if ch.fail then some (.rollback aborted,w)
    else
      let last := ((w.pg.view p).channel? c).bind (·.lastMessageId)
      statement w (if last = some m then .previous m c else .commit m c) (lockChannel w.pg p c)
  | .previous m c =>
    if ch.fail then some (.rollback aborted,w)
    else some (.lastMessage m c (Db.pick ch.pick (predecessors (w.pg.view p) m c)),w)
  | .lastMessage m c prev =>
    if ch.fail then some (.rollback aborted,w)
    else statement w (.commit m c) (w.pg.statement p [(.channel c,.noKeyUpdate)]
      [.setLastMessage c (prev.map (·.id)) (prev.map (·.createdAt))])
  | .commit m c =>
    if ch.fail then some (.rollback aborted,w)
    else some (.invalidate m c,{ w with pg := w.pg.commit p })
  | .rollback err => some (.failed (.database err),{ w with pg := w.pg.rollback p })
  | .invalidate m c =>
    some (.emit m c,if ch.fail then w else { w with redis := w.redis.invalidateMessages c })
  | .emit m c => some (.done m c,w.emit [.channel c] none (.messageDeleted m c))
  | .done _ _ => none
  | .failed _ => none

end DeleteMessage

/-! ### `popPendingMessages` -/

inductive GetPending
  | range (userId : Uuid)
  | remove (userId : Uuid) (raw : List MessagePayload)
  | done (messages : List MessagePayload) (remaining : ℕ)
  deriving DecidableEq, Repr

def GetPending.step (ch : Choice) (w : World) : GetPending → Option (GetPending × World)
  | .range u =>
    let raw := ((w.redis.pending u).take PENDING_BATCH_SIZE).map (·.2)
    if ch.fail ∨ raw.isEmpty then some (.done [] 0,w) else some (.remove u raw,w)
  | .remove u raw =>
    if ch.fail then some (.done [] 0,w)
    else
      let redis := w.redis.removePending u raw
      some (.done raw (redis.pending u).length,
        { w with redis := redis, popped := w.popped++raw.map (u,·) })
  | .done _ _ => none

end ZevraServer
