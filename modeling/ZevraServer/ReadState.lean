import ZevraServer.Refinement
import ZevraServer.Edges
import ZevraServer.Pools

/-!
# `ChannelsService.markRead`

The read watermark of a member lies in the member's row and is moved by `markRead` and by
the member's own `send`; the unread counter lies in Redis, is incremented by the delivery
jobs and reset by `markRead`. The conditional `UPDATE` of `markRead` is one statement on the
current row. The store keeps the rows of `message_reads` and the emitted `message:read` beside
the world of the server.
-/

namespace ZevraServer.Reading

open ReadCommitted Interleaving

/-- An emitted `message:read`, with the call that emits it. -/
structure Receipt where
  call : ℕ
  userId : Uuid
  channelId : Uuid
  messageId : Uuid
  deriving DecidableEq, Repr

/-- `messageReads` has the pairs of message and user. -/
structure Store where
  base : ZevraServer.World
  messageReads : List (Uuid × Uuid)
  receipts : List Receipt

/-! ### `markRead` -/

/-- The sequence number a row's watermark stands at, null as 0. -/
def seqOf (db : Db) (r : MembershipRow) : ℕ :=
  ((r.lastReadMessageId.bind db.message?).map (·.sequenceNumber)).getD 0

/-- The message of a request, if it is one of the channel. -/
def target? (db : Db) (c m : Uuid) : Option MessageRow := (db.message? m).filter (·.channelId = c)

/-- `row.currentSeq == null || row.currentSeq < row.targetSeq`. -/
def readsOn (db : Db) (r : MembershipRow) (targetSeq : ℕ) : Bool :=
  match r.lastReadMessageId.bind db.message? with
  | none => true
  | some m => m.sequenceNumber < targetSeq

/-- The `WHERE` of the `UPDATE`. -/
def behind (db : Db) (r : MembershipRow) (targetSeq : ℕ) : Bool :=
  r.lastReadMessageId.isNone || seqOf db r < targetSeq

/-- The `UPDATE` and whether it has changed a row. -/
def advanceRead (pg : Postgres) (p : ℕ) (membershipId messageId : Uuid) (targetSeq : ℕ) :
    Option (Postgres × Bool) :=
  match pg.db.memberships.find? (·.id = membershipId) with
  | none => some (pg,false)
  | some r =>
    if behind pg.db r targetSeq then
      (pg.auto p [(.membership membershipId,.noKeyUpdate)] [Write.setLastRead membershipId messageId]).map (·,true)
    else some (pg,false)

inductive MarkRead
  | select (userId channelId messageId : Uuid)
  | update (userId channelId messageId membershipId : Uuid) (targetSeq : ℕ)
  | reset (userId channelId messageId : Uuid) (advanced : Bool)
  | insert (userId channelId messageId : Uuid)
  | emit (userId channelId messageId : Uuid)
  | done (userId channelId messageId : Uuid) (advanced : Bool)
  | failed (err : HttpError)
  deriving DecidableEq, Repr

def MarkRead.step (p : ℕ) (ch : Choice) (s : Store) : MarkRead → Option (MarkRead × Store)
  | .select u c m =>
    if ch.fail then some (.failed (.database aborted),s)
    else match s.base.pg.db.membership? u c with
      | none => some (.failed (.forbidden "Not a member of this channel"),s)
      | some r =>
        match target? s.base.pg.db c m with
        | none => some (.failed (.notFound "Message not found in this channel"),s)
        | some t =>
          if readsOn s.base.pg.db r t.sequenceNumber then some (.update u c m r.id t.sequenceNumber,s)
          else some (.reset u c m false,s)
  | .update u c m i targetSeq =>
    if ch.fail then some (.failed (.database aborted),s)
    else (advanceRead s.base.pg p i m targetSeq).map fun r =>
      (.reset u c m r.2,{ s with base := { s.base with pg := r.1 } })
  | .reset u c m advanced =>
    let s := if ch.fail then s else { s with base := { s.base with redis := s.base.redis.resetUnread u c } }
    some (if advanced then .insert u c m else .done u c m false,s)
  | .insert u c m =>
    if ch.fail then some (.failed (.database aborted),s)
    else some (.emit u c m,
      if (m,u) ∈ s.messageReads then s else { s with messageReads := s.messageReads++[(m,u)] })
  | .emit u c m => some (.done u c m true,{ s with receipts := s.receipts++[⟨p,u,c,m⟩] })
  | .done _ _ _ _ => none
  | .failed _ => none

/-! ### The system -/

/-- The calls that move watermarks and counters. -/
inductive Call
  | send (q : Send)
  | worker (q : Worker)
  | markRead (q : MarkRead)
  deriving DecidableEq, Repr

def Call.step (x : Externals) (p : ℕ) (q : Call) (ch : Choice) (s : Store) : Option (Call × Store) :=
  match q with
  | .send q => (q.step x p ch s.base).map fun r => (.send r.1,{ s with base := r.2 })
  | .worker q => (q.step ch s.base).map fun r => (.worker r.1,{ s with base := r.2 })
  | .markRead q => (q.step p ch s).map fun r => (.markRead r.1,r.2)

def reading (x : Externals) : System Store Call Choice Event where
  step := Call.step x
  env e s := some { s with base := e.apply s.base }

inductive Call.Initial : Call → Prop
  | send (input except?) : Initial (.send (.check input except?))
  | worker : Initial (.worker .take)
  | markRead (u c m) : Initial (.markRead (.select u c m))

/-- Calls arrive in their initial state, and nothing else is asked of the run. -/
def Arrives (_ : Config Store Call) : Label Call Choice Event → Prop
  | .spawn q => q.Initial
  | _ => True

abbrev Steps := List (Config Store Call × Label Call Choice Event)

/-- The committed tables. -/
abbrev Store.db (s : Store) : Db := s.base.pg.db

/-- A watermark is null or a message of its channel. -/
def Owned (db : Db) : Prop :=
  ∀ r ∈ db.memberships, ∀ i, r.lastReadMessageId = some i → db.HasMessage i r.channelId

/-- What the tables satisfy before the first call: the constraints of the schema, numbers from 1 on
and watermarks on messages of their channels. -/
structure Marked (db : Db) : Prop where
  integrity : Integrity db
  rowIds : (db.memberships.map (·.id)).Nodup
  positive : ∀ m ∈ db.messages, 0 < m.sequenceNumber
  owned : Owned db

/-- The watermark of a row stands at a greater number after the change. -/
def Rises (d e : Db) (i : Uuid) : Prop :=
  ∃ r ∈ d.memberships, ∃ r' ∈ e.memberships, r.id = i ∧ r'.id = i ∧ seqOf d r < seqOf e r'

/-- The `UPDATE` of call `p` has moved a watermark to a greater number. -/
def Advanced (x : Externals) (tr : Steps) (p : ℕ) : Prop :=
  ∃ (a b : Config Store Call) (ch : Choice) (u c m i : Uuid) (n : ℕ), (a,.run p ch) ∈ tr ∧
    (reading x).next a (.run p ch) = some b ∧ a.pool[p]? = some (.markRead (.update u c m i n)) ∧
      Rises a.world.db b.world.db i

/-- No transaction is open, the tables are as `Marked` says, and nothing was emitted. -/
structure Starts (s : Store) : Prop where
  locks : s.base.pg.locks = []
  pending : ∀ p, s.base.pg.pending p = []
  marked : Marked s.db
  receipts : s.receipts = []

end ZevraServer.Reading
