import ZevraServer.World

/-!
# Inserting statements

An insertion claims its unique keys, takes `FOR KEY SHARE` locks on the rows it
references, and fails with the constraint it violates. `none` means that the
statement waits for a lock.
-/

namespace ZevraServer

open ReadCommitted

def uniqueViolation (constraint : String) : DbError := ⟨"23505",some constraint⟩

def foreignKeyViolation (constraint : String) : DbError := ⟨"23503",some constraint⟩

/-- `SELECT ... FROM channels WHERE id = c FOR UPDATE`: without the row there is nothing to
lock. -/
def lockChannel (pg : Postgres) (p : ℕ) (c : Uuid) : Option Postgres :=
  match (pg.view p).channel? c with
  | none => some pg
  | some _ => pg.acquire p [(.channel c,.update)]

/-- `UPDATE channels SET updatedAt WHERE id = c` outside a transaction. -/
def touchChannel (pg : Postgres) (p : ℕ) (c : Uuid) : Option Postgres :=
  match pg.db.channel? c with
  | none => some pg
  | some _ => pg.auto p [(.channel c,.noKeyUpdate)] []

/-- The largest value of an `integer` column. -/
def MAX_INTEGER : ℕ := 2147483647

def messageLocks (m : MessageRow) : List (Resource × Mode) :=
  [(.messageId m.id,.update),(.messageKey m.channelId m.sequenceNumber,.update),
    (.channel m.channelId,.keyShare),(.user m.senderId,.keyShare)]

/-- The constraint an inserted message violates, if any. -/
def messageViolation (db : Db) (m : MessageRow) : Option DbError :=
  if MAX_INTEGER < m.sequenceNumber then some ⟨"22003",none⟩
  else if ∃ r ∈ db.messages, r.id = m.id then some (uniqueViolation "messages_pkey")
  else if ∃ r ∈ db.messages, r.channelId = m.channelId ∧ r.sequenceNumber = m.sequenceNumber then
    some (uniqueViolation "idx_messages_channel_seq")
  else if db.channel? m.channelId = none then
    some (foreignKeyViolation "messages_channel_id_channels_id_fk")
  else if db.user? m.senderId = none then
    some (foreignKeyViolation "messages_sender_id_users_id_fk")
  else none

/-- `INSERT INTO messages` in an open transaction. -/
def insertMessage (pg : Postgres) (p : ℕ) (m : MessageRow) : Option (Except DbError Postgres) :=
  if pg.allFree p (messageLocks m) then
    match messageViolation (pg.view p) m with
    | some err => some (.error err)
    | none => (pg.statement p (messageLocks m) [.insertMessage m]).map .ok
  else none

/-- `INSERT INTO channels` in an open transaction. -/
def insertChannelRow (pg : Postgres) (p : ℕ) (c : ChannelRow) : Option (Except DbError Postgres) :=
  if pg.allFree p [(.channelId c.id,.update)] then
    if ∃ r ∈ (pg.view p).channels, r.id = c.id then some (.error (uniqueViolation "channels_pkey"))
    else (pg.statement p [(.channelId c.id,.update)] [.insertChannel c]).map .ok
  else none

def membershipLocks (m : MembershipRow) : List (Resource × Mode) :=
  [(.membershipId m.id,.update),(.membershipKey m.userId m.channelId,.update),
    (.channel m.channelId,.keyShare),(.user m.userId,.keyShare)]

/-- The constraint an inserted membership violates, if any. -/
def membershipViolation (db : Db) (m : MembershipRow) : Option DbError :=
  if ∃ r ∈ db.memberships, r.id = m.id then some (uniqueViolation "memberships_pkey")
  else if ∃ r ∈ db.memberships, r.userId = m.userId ∧ r.channelId = m.channelId then
    some (uniqueViolation "idx_memberships_user_channel")
  else if db.channel? m.channelId = none then
    some (foreignKeyViolation "memberships_channel_id_channels_id_fk")
  else if db.user? m.userId = none then
    some (foreignKeyViolation "memberships_user_id_users_id_fk")
  else none

/-- The first violation of a multi-row insertion, each row checked after the rows before
it. -/
def membershipsViolation (db : Db) : List MembershipRow → Option DbError
  | [] => none
  | m::ms =>
    match membershipViolation db m with
    | some err => some err
    | none => membershipsViolation (db.apply (.insertMembership m)) ms

/-- `INSERT INTO memberships` of several rows in an open transaction. -/
def insertMemberships (pg : Postgres) (p : ℕ) (ms : List MembershipRow) :
    Option (Except DbError Postgres) :=
  if pg.allFree p (ms.flatMap membershipLocks) then
    match membershipsViolation (pg.view p) ms with
    | some err => some (.error err)
    | none => (pg.statement p (ms.flatMap membershipLocks) (ms.map .insertMembership)).map .ok
  else none

/-- `INSERT INTO memberships ... ON CONFLICT (userId, channelId) DO NOTHING RETURNING id`
outside a transaction: the database after it and whether a row was inserted. -/
def insertMembershipOrNothing (pg : Postgres) (p : ℕ) (m : MembershipRow) :
    Option (Except DbError (Postgres × Bool)) :=
  if pg.free p (.membershipKey m.userId m.channelId) .update then
    if ∃ r ∈ pg.db.memberships, r.userId = m.userId ∧ r.channelId = m.channelId then
      some (.ok (pg,false))
    else if pg.allFree p (membershipLocks m) then
      match membershipViolation pg.db m with
      | some err => some (.error err)
      | none => (pg.auto p (membershipLocks m) [.insertMembership m]).map fun pg => .ok (pg,true)
    else none
  else none

end ZevraServer
