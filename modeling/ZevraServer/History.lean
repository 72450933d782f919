import ZevraServer.Messages

/-!
# Reading messages: `getMessages` and `getInbox`

`getMessages` answers from the cached list when it looks complete and from the
`messages` table otherwise; `getInbox` joins every channel with its last message.
-/

namespace ZevraServer

open ReadCommitted

/-! ### Pages -/

/-- A JavaScript number; `limit` may be any of them. -/
inductive JsNumber
  | nan
  | posInf
  | negInf
  | finite (q : ℚ)
  deriving DecidableEq, Repr

/-- `Math.min(Math.max(Math.trunc(limit) || 50, 1), 100)`. -/
def safeLimit : JsNumber → ℕ
  | .nan => 50
  | .posInf => 100
  | .negInf => 1
  | .finite q =>
    let t := q.num.tdiv q.den
    (min (max (if t = 0 then 50 else t) 1) 100).toNat

theorem safeLimit_pos (limit : JsNumber) : 0 < safeLimit limit := by
  cases limit with
  | nan => decide
  | posInf => decide
  | negInf => decide
  | finite q =>
    simp only [safeLimit]
    omega

inductive MessagePageMode
  | latest | before | since
  deriving DecidableEq, Repr

inductive PageSource
  | cache | database
  deriving DecidableEq, Repr

structure MessageReaction where
  emoji : String
  userId : Uuid
  username : Option String
  deriving DecidableEq, Repr

structure HistoryMessage where
  payload : MessagePayload
  reactions : List MessageReaction
  deriving DecidableEq, Repr

structure MessagePage where
  messages : List HistoryMessage
  nextCursor : Option ℕ
  hasMore : Bool
  source : PageSource
  deriving DecidableEq, Repr

/-- A page before its reactions are attached. -/
structure BarePage where
  messages : List MessagePayload
  nextCursor : Option ℕ
  hasMore : Bool
  deriving DecidableEq, Repr

/-- The three outcomes of `getCachedPage`. -/
inductive CachedAnswer
  | miss
  | broken
  | page (p : BarePage)
  deriving DecidableEq, Repr

/-- Every item is numbered one more than the item before it. -/
def contiguous : List MessagePayload → Bool
  | a::b::rest => b.sequenceNumber = a.sequenceNumber+1 && contiguous (b::rest)
  | _ => true

def CacheItem.payload? : CacheItem → Option MessagePayload
  | .payload m => some m
  | .malformed => none

/-- A malformed item makes the check fail wherever the sort puts it. -/
def cachedAnswer (cached : List CacheItem) (limit : ℕ) : CachedAnswer :=
  if cached.length < limit then .miss
  else if .malformed ∈ cached then .broken
  else
    let items := (cached.filterMap CacheItem.payload?).insertionSort
      fun a b => a.sequenceNumber ≤ b.sequenceNumber
    if contiguous items then
      match items with
      | [] => .broken
      | oldest::_ =>
        let hasMore : Bool := 1 < oldest.sequenceNumber
        .page ⟨items,if hasMore then some oldest.sequenceNumber else none,hasMore⟩
    else .broken

structure PageArgs where
  channelId : Uuid
  userId : Uuid
  limit : JsNumber
  cursor : Option ℤ
  mode : MessagePageMode
  deriving DecidableEq, Repr

def PageArgs.safeLimit (a : PageArgs) : ℕ := ZevraServer.safeLimit a.limit

/-- Whether the cached list is looked at. -/
def PageArgs.mayCache (a : PageArgs) : Bool :=
  a.cursor = none && a.mode ≠ .since && a.safeLimit ≤ MESSAGE_CACHE_SIZE

def PageArgs.admits (a : PageArgs) (m : MessageRow) : Bool :=
  match a.mode, a.cursor with
  | .before, some cursor => m.sequenceNumber < cursor
  | .since, some cursor => cursor < m.sequenceNumber
  | _, _ => true

/-- The rows of the page query, in its order and cut to `limit + 1`. -/
def PageArgs.rows (a : PageArgs) (db : Db) : List MessageRow :=
  let rows := (db.messagesOf a.channelId).filter a.admits
  let sorted := if a.mode = .since then rows.insertionSort fun m n => m.sequenceNumber ≤ n.sequenceNumber
    else rows.insertionSort fun m n => n.sequenceNumber ≤ m.sequenceNumber
  sorted.take (a.safeLimit+1)

def Db.username? (db : Db) (u : Uuid) : Option String := (db.user? u).map (·.username)

/-- The page `getMessages` builds from its query. -/
def PageArgs.databasePage (a : PageArgs) (db : Db) : BarePage :=
  let rows := a.rows db
  let hasMore : Bool := a.safeLimit < rows.length
  let page := if hasMore then rows.take a.safeLimit else rows
  let ordered := if a.mode = .since then page else page.reverse
  let payloads := ordered.map fun r => toMessagePayload r (db.username? r.senderId)
  let edge := if a.mode = .since then payloads.getLast? else payloads.head?
  ⟨payloads,if hasMore then edge.map (·.sequenceNumber) else none,hasMore⟩

/-- The message ids `attachReactions` asks for. -/
def BarePage.live (page : BarePage) : List Uuid :=
  (page.messages.filter fun m => m.isDeleted = false).map (·.id)

def attachReactions (db : Db) (page : BarePage) : List HistoryMessage :=
  let rows := db.reactions.filter fun r => r.messageId ∈ page.live
  page.messages.map fun m => ⟨m,(rows.filter fun r => r.messageId = m.id).map fun r =>
    ⟨r.emoji,r.userId,db.username? r.userId⟩⟩

inductive GetMessages
  | member (a : PageArgs)
  | cached (a : PageArgs)
  | invalidate (a : PageArgs)
  | rows (a : PageArgs)
  | reactions (a : PageArgs) (page : BarePage) (source : PageSource)
  | done (a : PageArgs) (page : MessagePage)
  | failed (err : HttpError)
  deriving DecidableEq, Repr

namespace GetMessages

def step (ch : Choice) (w : World) : GetMessages → Option (GetMessages × World)
  | .member a =>
    if ch.fail then some (.failed (.database aborted),w)
    else if w.pg.db.membership? a.userId a.channelId = none then
      some (.failed (.forbidden "Not a member of this channel"),w)
    else some (if a.mayCache then .cached a else .rows a,w)
  | .cached a =>
    if ch.fail then some (.rows a,w)
    else some (match cachedAnswer (w.redis.getRecentMessages a.channelId a.safeLimit) a.safeLimit with
      | .miss => .rows a
      | .broken => .invalidate a
      | .page p => .reactions a p .cache,w)
  | .invalidate a =>
    some (.rows a,if ch.fail then w else { w with redis := w.redis.invalidateMessages a.channelId })
  | .rows a =>
    if ch.fail then some (.failed (.database aborted),w)
    else some (.reactions a (a.databasePage w.pg.db) .database,w)
  | .reactions a page source =>
    if ch.fail ∧ page.live ≠ [] then some (.failed (.database aborted),w)
    else some (.done a ⟨attachReactions w.pg.db page,page.nextCursor,page.hasMore,source⟩,w)
  | .done _ _ => none
  | .failed _ => none

end GetMessages

/-! ### The inbox -/

/-- A channel joined with its last message and that message's sender. -/
structure InboxChannel where
  id : Uuid
  name : Option String
  type : ChannelType
  isArchived : Bool
  lastMessageId : Option Uuid
  lastMessageAt : Option ℕ
  lastMessageContent : Option String
  lastMessageSenderId : Option Uuid
  lastMessageSenderName : Option String
  lastMessageIv : Option String
  lastMessageTag : Option String
  lastMessageMetadata : Option String
  lastMessageSenderKeyEpoch : Option ℕ
  createdAt : ℕ
  deriving DecidableEq, Repr

structure InboxItem where
  channel : InboxChannel
  lastReadMessageId : Option Uuid
  dmPeerId : Option Uuid
  unreadCount : ℕ
  deriving DecidableEq, Repr

def inboxChannel (db : Db) (c : ChannelRow) : InboxChannel :=
  let last := c.lastMessageId.bind db.message?
  { id := c.id
    name := c.name
    type := c.type
    isArchived := c.isArchived
    lastMessageId := c.lastMessageId
    lastMessageAt := c.lastMessageAt
    lastMessageContent := last.map (·.encryptedContent)
    lastMessageSenderId := last.map (·.senderId)
    lastMessageSenderName := last.bind fun m => db.username? m.senderId
    lastMessageIv := last.map (·.contentIv)
    lastMessageTag := last.map (·.contentTag)
    lastMessageMetadata := last.bind (·.metadata)
    lastMessageSenderKeyEpoch := last.map (·.senderKeyEpoch)
    createdAt := c.createdAt }

/-- `DESC` puts nulls first. -/
def newerFirst : Option ℕ → Option ℕ → Bool
  | none, _ => true
  | some _, none => false
  | some a, some b => b ≤ a

def inboxChannels (db : Db) (ids : List Uuid) : List InboxChannel :=
  ((db.channels.filter fun c => c.id ∈ ids).insertionSort
    fun a b => newerFirst a.lastMessageAt b.lastMessageAt = true).map (inboxChannel db)

/-- The other members of the direct channels among `ids`, with their channels. -/
def dmMembers (db : Db) (u : Uuid) (ids : List Uuid) : List (Uuid × Uuid) :=
  (db.memberships.filter fun m => m.channelId ∈ ids ∧ m.userId ≠ u ∧
    (db.channel? m.channelId).any (·.type = .direct)).map fun m => (m.channelId,m.userId)

/-- `new Map(entries).get(k)`: the last entry of a key wins. -/
def mapGet {α : Type} (entries : List (Uuid × α)) (k : Uuid) : Option α :=
  (entries.reverse.find? fun e => e.1 = k).map (·.2)

def inboxItem (read : List (Uuid × Option Uuid)) (peers : List (Uuid × Uuid)) (unread : Uuid → ℕ)
    (c : InboxChannel) : InboxItem where
  channel := c
  lastReadMessageId := (mapGet read c.id).join
  dmPeerId := if c.type = .direct then mapGet peers c.id else none
  unreadCount := unread c.id

/-- The three reads of the `Promise.all` end in any order; `pick` chooses the next one.
`unread` holds the answer of the one `MGET`. -/
inductive GetInbox
  | memberships (userId : Uuid)
  | gather (userId : Uuid) (read : List (Uuid × Option Uuid)) (channels : Option (List InboxChannel))
      (peers : Option (List (Uuid × Uuid))) (unread : Option (List (Uuid × ℕ)))
  | done (userId : Uuid) (items : List InboxItem)
  | failed (err : HttpError)
  deriving DecidableEq, Repr

namespace GetInbox

def joinReads (u : Uuid) (read : List (Uuid × Option Uuid)) :
    Option (List InboxChannel) → Option (List (Uuid × Uuid)) → Option (List (Uuid × ℕ)) → GetInbox
  | some channels, some peers, some unread =>
    .done u (channels.map (inboxItem read peers fun c => (mapGet unread c).getD 0))
  | channels, peers, unread => .gather u read channels peers unread

def step (ch : Choice) (w : World) : GetInbox → Option (GetInbox × World)
  | .memberships u =>
    if ch.fail then some (.failed (.database aborted),w)
    else
      let read := (w.pg.db.memberships.filter fun m => m.userId = u).map
        fun m => (m.channelId,m.lastReadMessageId)
      some (if read.isEmpty then .done u [] else .gather u read none none none,w)
  | .gather u read channels peers unread =>
    let ids := read.map (·.1)
    match ch.pick % 3 with
    | 0 =>
      if channels.isSome then none
      else if ch.fail then some (.failed (.database aborted),w)
      else some (joinReads u read (some (inboxChannels w.pg.db ids)) peers unread,w)
    | 1 =>
      if peers.isSome then none
      else if ch.fail then some (.failed (.database aborted),w)
      else some (joinReads u read channels (some (dmMembers w.pg.db u ids)) unread,w)
    | _ =>
      if unread.isSome then none
      else some (joinReads u read channels peers
        (some (if ch.fail then [] else ids.map fun c => (c,w.redis.unread u c))),w)
  | .done _ _ => none
  | .failed _ => none

end GetInbox

end ZevraServer
