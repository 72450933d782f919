import Mathlib.Tactic
import ZevraServer.ReadCommitted

/-!
# The Postgres tables

Rows of `users`, `channels`, `memberships`, `messages` and `reactions`, with the
columns some modelled function reads or writes. UUID columns hold the value of
the UUID, so two spellings of one UUID are one value here; timestamps are the
millisecond dates the ORM hands to the program. A table is the list of its rows
in the order of their insertion.
-/

namespace ZevraServer

open ReadCommitted

abbrev Uuid := ℕ

/-- `channels.type`. -/
inductive ChannelType
  | direct | group
  deriving DecidableEq, Repr

/-- `memberships.role`. -/
inductive Role
  | member | admin
  deriving DecidableEq, Repr

structure UserRow where
  id : Uuid
  username : String
  publicKeySign : String
  isActive : Bool
  deriving DecidableEq, Repr

structure ChannelRow where
  id : Uuid
  name : Option String
  type : ChannelType
  isArchived : Bool
  lastMessageId : Option Uuid
  lastMessageAt : Option ℕ
  createdAt : ℕ
  deriving DecidableEq, Repr

structure MembershipRow where
  id : Uuid
  role : Role
  joinedAt : ℕ
  lastReadMessageId : Option Uuid
  userId : Uuid
  channelId : Uuid
  deriving DecidableEq, Repr

/-- `metadata` is the JSON text of the object, `none` for SQL null. -/
structure MessageRow where
  id : Uuid
  messageType : String
  encryptedContent : String
  contentIv : String
  contentTag : String
  signature : String
  sequenceNumber : ℕ
  senderKeyEpoch : ℕ
  metadata : Option String
  isDeleted : Bool
  createdAt : ℕ
  senderId : Uuid
  channelId : Uuid
  deriving DecidableEq, Repr

structure ReactionRow where
  id : Uuid
  emoji : String
  messageId : Uuid
  userId : Uuid
  deriving DecidableEq, Repr

structure Db where
  users : List UserRow
  channels : List ChannelRow
  memberships : List MembershipRow
  messages : List MessageRow
  reactions : List ReactionRow
  deriving DecidableEq, Repr

/-- `SET isDeleted = true, encryptedContent = '', metadata = null`. -/
def MessageRow.wipe (m : MessageRow) : MessageRow :=
  { m with isDeleted := true, encryptedContent := "", metadata := none }

/-- The same `WHERE id = id`. -/
def MessageRow.wipeIf (id : Uuid) (m : MessageRow) : MessageRow := if m.id = id then m.wipe else m

/-- `SET lastMessageId = id, lastMessageAt = at' WHERE id = c`, on one row. -/
def ChannelRow.point (c : Uuid) (id : Option Uuid) (at' : Option ℕ) (r : ChannelRow) : ChannelRow :=
  if r.id = c then { r with lastMessageId := id, lastMessageAt := at' } else r

/-- `SET lastReadMessageId = messageId WHERE id = id`. -/
def MembershipRow.setLastRead (id messageId : Uuid) (r : MembershipRow) : MembershipRow :=
  if r.id = id then { r with lastReadMessageId := some messageId } else r

/-- `SET role = role WHERE id = id`, for a row of channel `c`. -/
def MembershipRow.setRole (id c : Uuid) (role : Role) (r : MembershipRow) : MembershipRow :=
  if r.id = id ∧ r.channelId = c then { r with role := role } else r

/-- The row writes of the modelled statements. -/
inductive Write
  | insertMessage (m : MessageRow)
  | wipeMessage (id : Uuid)
  | deleteReactions (ids : List Uuid)
  | setLastMessage (channelId : Uuid) (id : Option Uuid) (at' : Option ℕ)
  | setLastRead (membershipId messageId : Uuid)
  | insertChannel (c : ChannelRow)
  | insertMembership (m : MembershipRow)
  | deleteMembership (userId channelId : Uuid)
  | setRole (id channelId : Uuid) (role : Role)
  deriving DecidableEq, Repr

def Db.apply : Write → Db → Db
  | .insertMessage m, db => { db with messages := db.messages++[m] }
  | .wipeMessage id, db => { db with messages := db.messages.map (·.wipeIf id) }
  | .deleteReactions ids, db =>
    { db with reactions := db.reactions.filter fun r => r.id ∉ ids }
  | .setLastMessage c id at', db =>
    { db with channels := db.channels.map (·.point c id at') }
  | .setLastRead id m, db =>
    { db with memberships := db.memberships.map (·.setLastRead id m) }
  | .insertChannel c, db => { db with channels := db.channels++[c] }
  | .insertMembership m, db => { db with memberships := db.memberships++[m] }
  | .deleteMembership u c, db =>
    { db with memberships := db.memberships.filter fun r => ¬(r.userId = u ∧ r.channelId = c) }
  | .setRole id c role, db =>
    { db with memberships := db.memberships.map (·.setRole id c role) }

instance : Writable Write Db := ⟨Db.apply⟩

/-- Rows, unique keys and advisory locks a transaction can hold. -/
inductive Resource
  | user (id : Uuid)
  | channel (id : Uuid)
  | membership (id : Uuid)
  | message (id : Uuid)
  | reaction (id : Uuid)
  | channelId (id : Uuid)
  | membershipId (id : Uuid)
  | membershipKey (userId channelId : Uuid)
  | messageId (id : Uuid)
  | messageKey (channelId : Uuid) (sequenceNumber : ℕ)
  | advisory (key : ℤ)
  deriving DecidableEq, Repr

abbrev Postgres := Pg Db Write Resource

/-! ### Queries -/

namespace Db

def user? (db : Db) (id : Uuid) : Option UserRow := db.users.find? fun u => u.id = id

def channel? (db : Db) (id : Uuid) : Option ChannelRow := db.channels.find? fun c => c.id = id

def message? (db : Db) (id : Uuid) : Option MessageRow := db.messages.find? fun m => m.id = id

/-- `WHERE userId = u AND channelId = c`. -/
def membership? (db : Db) (u c : Uuid) : Option MembershipRow :=
  db.memberships.find? fun m => m.userId = u ∧ m.channelId = c

def messagesOf (db : Db) (c : Uuid) : List MessageRow := db.messages.filter fun m => m.channelId = c

def membershipsOf (db : Db) (c : Uuid) : List MembershipRow :=
  db.memberships.filter fun m => m.channelId = c

/-- `SELECT userId FROM memberships WHERE channelId = c`. -/
def memberIds (db : Db) (c : Uuid) : List Uuid := (db.membershipsOf c).map (·.userId)

/-- `SELECT channelId FROM memberships WHERE userId = u`. -/
def channelIdsOf (db : Db) (u : Uuid) : List Uuid :=
  (db.memberships.filter fun m => m.userId = u).map (·.channelId)

/-- `coalesce(max(sequenceNumber), 0)` over the messages of a channel. -/
def maxSequence (db : Db) (c : Uuid) : ℕ :=
  ((db.messagesOf c).map (·.sequenceNumber)).foldl max 0

/-- Rows that a query ordered by `le` and cut by `LIMIT 1` may return. -/
def firsts {α : Type} (le : α → α → Bool) (rows : List α) : List α :=
  rows.filter fun r => rows.all fun r' => le r r'

/-- The candidate a nondeterministic `LIMIT 1` returns. -/
def pick {α : Type} (n : ℕ) (rows : List α) : Option α := rows[n % rows.length]?

end Db

end ZevraServer
