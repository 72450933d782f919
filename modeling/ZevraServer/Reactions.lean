import ZevraServer.Interleaving
import ZevraServer.Messages
import ZevraServer.RawIds

/-!
# `ReactionsService` and the deletion of a message

`addReaction`, `removeReaction` and `deleteMessage` statement by statement. A
`DELETE` first takes its snapshot and then waits for the locks of the rows it
found; rows that another transaction has deleted meanwhile are skipped, rows
inserted after the snapshot are not seen. The advisory lock is taken on the texts
of the request, the tables compare values.
-/

namespace ZevraServer.Reactions

open ReadCommitted Interleaving

/-! ### Tables and locks -/

inductive Change
  | insertReaction (r : ReactionRow)
  | deleteReactions (rows : List ReactionRow)
  | write (w : Write)
  deriving DecidableEq, Repr

def apply : Change → Db → Db
  | .insertReaction r, db => { db with reactions := db.reactions++[r] }
  | .deleteReactions rows, db => { db with reactions := db.reactions.filter (· ∉ rows) }
  | .write w, db => db.apply w

instance : Writable Change Db := ⟨apply⟩

/-- Rows, the unique key of `reactions` and the advisory lock with two keys. -/
inductive Lockable
  | row (r : Resource)
  | key (messageId userId : Uuid) (emoji : String)
  | advisory (message user : ℤ)
  deriving DecidableEq, Repr

abbrev Postgres := Pg Db Change Lockable

/-! ### Requests, results and events -/

structure ReactionActor where
  id : Uuid
  username : String
  deriving DecidableEq, Repr

/-- The arguments of `addReaction` and `removeReaction`. -/
structure Request where
  actor : ReactionActor
  channelId : RawId
  messageId : RawId
  emoji : String
  deriving DecidableEq, Repr

inductive AddAction
  | added | alreadyExists
  deriving DecidableEq, Repr

structure AddReactionResult where
  action : AddAction
  replaced : List String
  deriving DecidableEq, Repr

inductive RemoveAction
  | removed | notFound
  deriving DecidableEq, Repr

/-- The payload of `reaction:added` and `reaction:removed`. -/
structure ReactionData where
  userId : Uuid
  username : String
  messageId : RawId
  emoji : String
  channelId : RawId
  deriving DecidableEq, Repr

inductive Event
  | reactionAdded (data : ReactionData)
  | reactionRemoved (data : ReactionData)
  | messageDeleted (messageId channelId : RawId)
  deriving DecidableEq, Repr

/-- A call of `emitToChannel`. -/
structure Emission where
  channelId : RawId
  exceptUserId : Option Uuid
  event : Event
  deriving DecidableEq, Repr

structure World where
  pg : Postgres
  emitted : List Emission

def World.emit (w : World) (es : List Emission) : World := { w with emitted := w.emitted++es }

/-! ### Queries -/

/-- The row `loadTarget` selects. -/
structure Target where
  channelId : Uuid
  isDeleted : Bool
  membershipId : Option Uuid
  deriving DecidableEq, Repr

def target? (db : Db) (userId messageId : Uuid) : Option Target :=
  (db.message? messageId).map fun m =>
    ⟨m.channelId,m.isDeleted,(db.membership? userId m.channelId).map (·.id)⟩

namespace Request

variable (r : Request)

/-- The value the text of the message id stands for. -/
def message : Uuid := .ofText r.messageId

def loadTarget (db : Db) : Except HttpError Target :=
  match target? db r.actor.id r.message with
  | none => .error (.notFound "Message not found")
  | some row =>
    if row.channelId.text ≠ r.channelId then .error (.notFound "Message not found")
    else if row.membershipId = none then .error (.forbidden "Not a member of this channel")
    else .ok row

/-- `WHERE messageId AND userId AND emoji <> emoji`. -/
def replaceable (row : ReactionRow) : Bool :=
  row.messageId = r.message && row.userId = r.actor.id && row.emoji ≠ r.emoji

/-- `WHERE messageId AND userId AND emoji = emoji`. -/
def removable (row : ReactionRow) : Bool :=
  row.messageId = r.message && row.userId = r.actor.id && row.emoji = r.emoji

def row (id : Uuid) : ReactionRow := ⟨id,r.emoji,r.message,r.actor.id⟩

def data (emoji : String) : ReactionData := ⟨r.actor.id,r.actor.username,r.messageId,emoji,r.channelId⟩

/-- `broadcast`. -/
def broadcast (e : Event) : Emission := ⟨r.channelId,some r.actor.id,e⟩

/-- What `addReaction` broadcasts for a result. -/
def added (res : AddReactionResult) : List Emission :=
  res.replaced.map (fun e => r.broadcast (.reactionRemoved (r.data e)))++
    if res.action = .added then [r.broadcast (.reactionAdded (r.data r.emoji))] else []

def removed : Emission := r.broadcast (.reactionRemoved (r.data r.emoji))

/-- The keys of `pg_advisory_xact_lock`. -/
def advisory (hash : String → ℤ) : Lockable := .advisory (hash r.messageId) (hash r.actor.id.text)

end Request

/-! ### Statements -/

def rowLocks (rows : List ReactionRow) : List (Lockable × Mode) :=
  rows.map fun r => (.row (.reaction r.id),.update)

/-- The rows a `DELETE` returns: those of its snapshot that are still there. -/
def returning (db : Db) (rows : List ReactionRow) : List ReactionRow := db.reactions.filter (· ∈ rows)

/-- `reactions.emoji` is a `varchar(32)`. -/
def MAX_EMOJI : ℕ := 32

def sameKey (row r : ReactionRow) : Bool :=
  r.messageId = row.messageId && r.userId = row.userId && r.emoji = row.emoji

def insertLocks (row : ReactionRow) : List (Lockable × Mode) :=
  [(.row (.reaction row.id),.update),(.key row.messageId row.userId row.emoji,.update),
    (.row (.message row.messageId),.keyShare),(.row (.user row.userId),.keyShare)]

def reactionViolation (db : Db) (row : ReactionRow) : Option DbError :=
  if ∃ r ∈ db.reactions, r.id = row.id then some (uniqueViolation "reactions_pkey")
  else if db.message? row.messageId = none then
    some (foreignKeyViolation "reactions_message_id_messages_id_fk")
  else if db.user? row.userId = none then some (foreignKeyViolation "reactions_user_id_users_id_fk")
  else none

/-- `INSERT ... ON CONFLICT (messageId, userId, emoji) DO NOTHING RETURNING id`, and whether
a row was inserted. It waits for an open transaction that has inserted the key or deleted
the row that has it. -/
def insertReaction (pg : Postgres) (p : ℕ) (row : ReactionRow) :
    Option (Except DbError (Postgres × Bool)) :=
  if MAX_EMOJI < row.emoji.length then some (.error ⟨"22001",none⟩)
  else if pg.allFree p ((.key row.messageId row.userId row.emoji,.update)::
      rowLocks (pg.db.reactions.filter (sameKey row))) then
    if (pg.view p).reactions.any (sameKey row) then some (.ok (pg,false))
    else if pg.allFree p (insertLocks row) then
      match reactionViolation (pg.view p) row with
      | some err => some (.error err)
      | none => (pg.statement p (insertLocks row) [.insertReaction row]).map fun pg => .ok (pg,true)
    else none
  else none

/-! ### `addReaction` -/

inductive AddReaction
  | load (r : Request)
  | lock (r : Request)
  | remove (r : Request)
  | removing (r : Request) (rows : List ReactionRow)
  | insert (r : Request) (replaced : List String)
  | commit (r : Request) (res : AddReactionResult)
  | rollback (err : DbError)
  | broadcast (r : Request) (res : AddReactionResult)
  | done (res : AddReactionResult)
  | failed (err : HttpError)
  deriving DecidableEq, Repr

/-- A statement of an open transaction that may have to wait. -/
def World.after {Q : Type} (w : World) (next : Q) (pg : Option Postgres) : Option (Q × World) :=
  pg.map fun pg => (next,{ w with pg := pg })

def AddReaction.step (hash : String → ℤ) (p : ℕ) (ch : Choice) (w : World) :
    AddReaction → Option (AddReaction × World)
  | .load r =>
    if ch.fail then some (.failed (.database aborted),w)
    else match r.loadTarget w.pg.db with
      | .error err => some (.failed err,w)
      | .ok target =>
        if target.isDeleted then some (.failed (.badRequest "Message has been deleted"),w)
        else some (.lock r,w)
  | .lock r =>
    if ch.fail then some (.rollback aborted,w)
    else w.after (.remove r) (w.pg.acquire p [(r.advisory hash,.update)])
  | .remove r =>
    if ch.fail then some (.rollback aborted,w)
    else some (.removing r ((w.pg.view p).reactions.filter r.replaceable),w)
  | .removing r rows =>
    if ch.fail then some (.rollback aborted,w)
    else w.after (.insert r ((returning (w.pg.view p) rows).map (·.emoji)))
      (w.pg.statement p (rowLocks rows) [.deleteReactions rows])
  | .insert r replaced =>
    if ch.fail then some (.rollback aborted,w)
    else match insertReaction w.pg p (r.row (ch.ids.headD 0)) with
      | none => none
      | some (.error err) => some (.rollback err,w)
      | some (.ok (pg,inserted)) =>
        some (.commit r ⟨if inserted then .added else .alreadyExists,replaced⟩,{ w with pg := pg })
  | .commit r res =>
    if ch.fail then some (.rollback aborted,w)
    else some (.broadcast r res,{ w with pg := w.pg.commit p })
  | .rollback err => some (.failed (.database err),{ w with pg := w.pg.rollback p })
  | .broadcast r res => some (.done res,w.emit (r.added res))
  | .done _ => none
  | .failed _ => none

/-! ### `removeReaction` -/

inductive RemoveReaction
  | load (r : Request)
  | remove (r : Request)
  | removing (r : Request) (rows : List ReactionRow)
  | broadcast (r : Request) (deleted : Bool)
  | done (action : RemoveAction)
  | failed (err : HttpError)
  deriving DecidableEq, Repr

def RemoveReaction.step (p : ℕ) (ch : Choice) (w : World) : RemoveReaction → Option (RemoveReaction × World)
  | .load r =>
    if ch.fail then some (.failed (.database aborted),w)
    else match r.loadTarget w.pg.db with
      | .error err => some (.failed err,w)
      | .ok _ => some (.remove r,w)
  | .remove r =>
    if ch.fail then some (.failed (.database aborted),w)
    else some (.removing r (w.pg.db.reactions.filter r.removable),w)
  | .removing r rows =>
    if ch.fail then some (.failed (.database aborted),w)
    else w.after (.broadcast r (!(returning w.pg.db rows).isEmpty))
      (w.pg.auto p (rowLocks rows) [.deleteReactions rows])
  | .broadcast r deleted =>
    some (.done (if deleted then .removed else .notFound),w.emit (if deleted then [r.removed] else []))
  | .done _ => none
  | .failed _ => none

/-! ### `deleteMessage` -/

inductive DeleteMessage
  | select (userId : Uuid) (messageId : RawId)
  | wipe (messageId : RawId) (channelId : Uuid)
  | sweep (messageId : RawId) (channelId : Uuid)
  | sweeping (messageId : RawId) (channelId : Uuid) (rows : List ReactionRow)
  | lock (messageId : RawId) (channelId : Uuid)
  | previous (messageId : RawId) (channelId : Uuid)
  | lastMessage (messageId : RawId) (channelId : Uuid) (prev : Option MessageRow)
  | commit (messageId : RawId) (channelId : Uuid)
  | rollback (err : DbError)
  | emit (messageId : RawId) (channelId : Uuid)
  | done (messageId : RawId) (channelId : Uuid)
  | failed (err : HttpError)
  deriving DecidableEq, Repr

namespace DeleteMessage

/-- `UPDATE messages SET isDeleted = true ... WHERE id = m`. -/
def wipeRow (pg : Postgres) (p : ℕ) (m : Uuid) : Option Postgres :=
  pg.statement p [(.row (.message m),.noKeyUpdate)] [.write (.wipeMessage m)]

def lockChannel (pg : Postgres) (p : ℕ) (c : Uuid) : Option Postgres :=
  match (pg.view p).channel? c with
  | none => some pg
  | some _ => pg.acquire p [(.row (.channel c),.update)]

def deleted (i : RawId) (c : Uuid) : Emission := ⟨c.text,none,.messageDeleted i c.text⟩

def step (p : ℕ) (ch : Choice) (w : World) : DeleteMessage → Option (DeleteMessage × World)
  | .select u i =>
    if ch.fail then some (.failed (.database aborted),w)
    else match w.pg.db.message? (.ofText i) with
      | none => some (.failed (.notFound "Message not found"),w)
      | some msg =>
        if msg.senderId ≠ u then some (.failed (.forbidden "Can only delete your own messages"),w)
        else if msg.isDeleted then some (.emit i msg.channelId,w)
        else some (.wipe i msg.channelId,w)
  | .wipe i c =>
    if ch.fail then some (.rollback aborted,w)
    else w.after (.sweep i c) (wipeRow w.pg p (.ofText i))
  | .sweep i c =>
    if ch.fail then some (.rollback aborted,w)
    else some (.sweeping i c ((w.pg.view p).reactions.filter fun r => r.messageId = .ofText i),w)
  | .sweeping i c rows =>
    if ch.fail then some (.rollback aborted,w)
    else w.after (.lock i c) (w.pg.statement p (rowLocks rows) [.deleteReactions rows])
  | .lock i c =>
    if ch.fail then some (.rollback aborted,w)
    else
      let last := ((w.pg.view p).channel? c).bind (·.lastMessageId)
      w.after (if last.map Uuid.text = some i then .previous i c else .commit i c) (lockChannel w.pg p c)
  | .previous i c =>
    if ch.fail then some (.rollback aborted,w)
    else some (.lastMessage i c (Db.pick ch.pick
      (ZevraServer.DeleteMessage.predecessors (w.pg.view p) (.ofText i) c)),w)
  | .lastMessage i c prev =>
    if ch.fail then some (.rollback aborted,w)
    else w.after (.commit i c) (w.pg.statement p [(.row (.channel c),.noKeyUpdate)]
      [.write (.setLastMessage c (prev.map (·.id)) (prev.map (·.createdAt)))])
  | .commit i c =>
    if ch.fail then some (.rollback aborted,w)
    else some (.emit i c,{ w with pg := w.pg.commit p })
  | .rollback err => some (.failed (.database err),{ w with pg := w.pg.rollback p })
  | .emit i c => some (.done i c,w.emit [deleted i c])
  | .done _ _ => none
  | .failed _ => none

end DeleteMessage

/-! ### The system -/

inductive Call
  | add (q : AddReaction)
  | remove (q : RemoveReaction)
  | delete (q : DeleteMessage)
  deriving DecidableEq, Repr

def Call.step (hash : String → ℤ) (p : ℕ) (ch : Choice) (w : World) : Call → Option (Call × World)
  | .add q => (q.step hash p ch w).map fun r => (.add r.1,r.2)
  | .remove q => (q.step p ch w).map fun r => (.remove r.1,r.2)
  | .delete q => (q.step p ch w).map fun r => (.delete r.1,r.2)

def system (hash : String → ℤ) : System World Call Choice Empty where
  step p q ch w := q.step hash p ch w
  env e _ := e.elim

/-- The control states in which calls start. -/
inductive Call.Starts : Call → Prop
  | add (r : Request) : Starts (.add (.load r))
  | remove (r : Request) : Starts (.remove (.load r))
  | delete (u : Uuid) (i : RawId) : Starts (.delete (.select u i))

end ZevraServer.Reactions
