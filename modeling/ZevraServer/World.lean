import ZevraServer.Schema

/-!
# Redis, sockets and the delivery queue

The state the calls share beside Postgres: the Redis keys written by
`RedisCacheService`, `RedisSessionService` and `ChannelMembersService`, the
Socket.IO rooms, and the BullMQ queue of delivery jobs. Each Redis command or
`MULTI` is one step; a step whose command fails, or that finds no ready client,
leaves Redis as it was.
-/

namespace ZevraServer

open ReadCommitted

/-- A failed statement as the program sees it. `constraint` names the violated unique
index or foreign key. -/
structure DbError where
  code : String
  constraint : Option String
  deriving DecidableEq, Repr

/-- The exceptions the modelled services throw, with their texts. `typeError` is the one
JavaScript throws on a property of `undefined`. -/
inductive HttpError
  | badRequest (message : String)
  | forbidden (message : String)
  | notFound (message : String)
  | conflict (message : String)
  | payloadTooLarge (message : String)
  | database (err : DbError)
  | typeError
  deriving DecidableEq, Repr

/-- `PendingMessage` and `MessagePayload`; `messageId` repeats `id`. -/
structure MessagePayload where
  id : Uuid
  messageId : Uuid
  channelId : Uuid
  senderId : Uuid
  senderUsername : Option String
  encryptedContent : String
  contentIv : String
  contentTag : String
  signature : String
  sequenceNumber : ℕ
  senderKeyEpoch : ℕ
  messageType : String
  metadata : Option String
  isDeleted : Bool
  createdAt : ℕ
  deriving DecidableEq, Repr

def toMessagePayload (row : MessageRow) (senderUsername : Option String) : MessagePayload where
  id := row.id
  messageId := row.id
  channelId := row.channelId
  senderId := row.senderId
  senderUsername := senderUsername
  encryptedContent := if row.isDeleted then "" else row.encryptedContent
  contentIv := row.contentIv
  contentTag := row.contentTag
  signature := row.signature
  sequenceNumber := row.sequenceNumber
  senderKeyEpoch := row.senderKeyEpoch
  messageType := row.messageType
  metadata := if row.isDeleted then none else row.metadata
  isDeleted := row.isDeleted
  createdAt := row.createdAt

structure MessageDeliveryJob where
  message : MessagePayload
  recipientIds : List Uuid
  offlineUserIds : List Uuid
  deriving DecidableEq, Repr

/-- An element of the message cache list: a payload, or JSON of another shape. -/
inductive CacheItem
  | payload (m : MessagePayload)
  | malformed
  deriving DecidableEq, Repr

def MESSAGE_CACHE_SIZE : ℕ := 50

/-- Absent keys are the empty set, list or sorted set, and the counter zero. -/
structure Redis where
  channelMembers : Uuid → List Uuid
  messageCache : Uuid → List CacheItem
  unread : Uuid → Uuid → ℕ
  pending : Uuid → List (ℕ × MessagePayload)

namespace Redis

/-- `DEL` and `SADD` of a full snapshot; `setMembers` skips an empty one. -/
def setMembers (r : Redis) (c : Uuid) (userIds : List Uuid) : Redis :=
  if userIds.isEmpty then r
  else { r with channelMembers := Function.update r.channelMembers c userIds.dedup }

def invalidate (r : Redis) (c : Uuid) : Redis :=
  { r with channelMembers := Function.update r.channelMembers c [] }

/-- `LRANGE key -n -1` and `LTRIM key -n -1` keep the last `n` elements. -/
def lastItems (n : ℕ) (items : List CacheItem) : List CacheItem := items.drop (items.length-n)

/-- `RPUSH` then `LTRIM`. -/
def cacheMessage (r : Redis) (c : Uuid) (m : MessagePayload) : Redis :=
  { r with
    messageCache := Function.update r.messageCache c
      (lastItems MESSAGE_CACHE_SIZE (r.messageCache c++[.payload m])) }

def invalidateMessages (r : Redis) (c : Uuid) : Redis :=
  { r with messageCache := Function.update r.messageCache c [] }

def getRecentMessages (r : Redis) (c : Uuid) (limit : ℕ) : List CacheItem :=
  lastItems limit (r.messageCache c)

/-- Sorted sets order by score and then by the bytes of the stored JSON, which begins
with the `id` field. -/
def zBefore (a b : ℕ × MessagePayload) : Bool := a.1 < b.1 || a.1 = b.1 && a.2.id ≤ b.2.id

/-- `ZADD` of a member the set already has changes nothing but its score. -/
def zAdd (x : ℕ × MessagePayload) (set : List (ℕ × MessagePayload)) : List (ℕ × MessagePayload) :=
  (set.filter fun y => y.2 ≠ x.2).orderedInsert (fun a b => zBefore a b = true) x

/-- One `MULTI` for all users. -/
def addPendingMessage (r : Redis) (userIds : List Uuid) (score : ℕ) (m : MessagePayload) : Redis :=
  { r with pending := fun u => if u ∈ userIds then zAdd (score,m) (r.pending u) else r.pending u }

/-- `ZREM` of the listed members. -/
def removePending (r : Redis) (u : Uuid) (raw : List MessagePayload) : Redis :=
  { r with pending := Function.update r.pending u ((r.pending u).filter fun x => x.2 ∉ raw) }

def incrementUnreadMany (r : Redis) (userIds : List Uuid) (c : Uuid) : Redis :=
  { r with unread := fun u d => if d = c then r.unread u d+userIds.count u else r.unread u d }

def resetUnread (r : Redis) (u c : Uuid) : Redis :=
  { r with unread := fun u' c' => if u' = u ∧ c' = c then 0 else r.unread u' c' }

end Redis

/-- `user:{id}` and `channel:{id}`. -/
inductive Room
  | user (id : Uuid)
  | channel (id : Uuid)
  deriving DecidableEq, Repr

/-- A connected socket of an authenticated user. `announced` says that `connected` was
emitted to it; `left` lists the channels whose room it was taken out of, by
`leave-channel` or by a removal, and did not join again. -/
structure Socket where
  id : ℕ
  user : Uuid
  rooms : List Room
  announced : Bool
  left : List Uuid
  deriving DecidableEq, Repr

def Socket.join (s : Socket) (rooms : List Room) : Socket :=
  { s with
    rooms := s.rooms++rooms.filter (· ∉ s.rooms)
    left := s.left.filter fun c => .channel c ∉ rooms }

def Socket.leave (s : Socket) (c : Uuid) : Socket :=
  if .channel c ∈ s.rooms then
    { s with rooms := s.rooms.filter (· ≠ .channel c), left := c::s.left }
  else s

namespace Socket

variable {s : Socket} {c : Uuid} {r : Room}

@[simp] theorem join_user (s : Socket) (rooms : List Room) : (s.join rooms).user = s.user := rfl

@[simp] theorem join_id (s : Socket) (rooms : List Room) : (s.join rooms).id = s.id := rfl

@[simp] theorem join_announced (s : Socket) (rooms : List Room) :
    (s.join rooms).announced = s.announced := rfl

@[simp] theorem leave_user (s : Socket) (c : Uuid) : (s.leave c).user = s.user := by
  unfold leave
  split <;> rfl

@[simp] theorem leave_id (s : Socket) (c : Uuid) : (s.leave c).id = s.id := by
  unfold leave
  split <;> rfl

@[simp] theorem leave_announced (s : Socket) (c : Uuid) : (s.leave c).announced = s.announced := by
  unfold leave
  split <;> rfl

theorem mem_join {rooms : List Room} : r ∈ (s.join rooms).rooms ↔ r ∈ s.rooms ∨ r ∈ rooms := by
  by_cases h : r ∈ s.rooms <;> simp [join,h]

theorem mem_leave : r ∈ (s.leave c).rooms ↔ r ∈ s.rooms ∧ r ≠ .channel c := by
  unfold leave
  split
  · simp
  · rename_i h
    refine ⟨fun hr => ⟨hr,?_⟩,fun hr => hr.1⟩
    rintro rfl
    exact h hr

/-- Joining and leaving do not lose sight of a room the socket is in or has left. -/
theorem join_kept {rooms : List Room} (h : .channel c ∈ s.rooms ∨ c ∈ s.left) :
    .channel c ∈ (s.join rooms).rooms ∨ c ∈ (s.join rooms).left := by
  by_cases hr : .channel c ∈ rooms
  · exact .inl (mem_join.mpr (.inr hr))
  · rcases h with h | h
    · exact .inl (mem_join.mpr (.inl h))
    · exact .inr (List.mem_filter.mpr ⟨h,by simpa using hr⟩)

theorem leave_kept {c' : Uuid} (h : .channel c ∈ s.rooms ∨ c ∈ s.left) :
    .channel c ∈ (s.leave c').rooms ∨ c ∈ (s.leave c').left := by
  unfold leave
  split
  · by_cases hc : c = c'
    · exact .inr (by simp [hc])
    · rcases h with h | h
      · exact .inl (List.mem_filter.mpr ⟨h,by simpa using hc⟩)
      · exact .inr (List.mem_cons_of_mem _ h)
  · exact h

end Socket

inductive ServerEvent
  | messageNew (m : MessagePayload)
  | messageDeleted (messageId channelId : Uuid)
  | channelCreated (channelId : Uuid) (memberIds : List Uuid) (createdBy : Uuid)
  | memberAdded (channelId userId : Uuid)
  | memberRemoved (channelId userId : Uuid)
  | connected (userId : Uuid) (socketId : ℕ)
  deriving DecidableEq, Repr

/-- The shared state. Sockets are numbered in the order they connect, and `connections`
counts them. `inbox` lists the events the sockets received, with the socket and its user;
`popped` lists the payloads that `ZREM` took out of a pending queue for a caller. -/
structure World where
  pg : Postgres
  redis : Redis
  sockets : List Socket
  connections : ℕ
  queue : List MessageDeliveryJob
  inbox : List (ℕ × Uuid × ServerEvent)
  popped : List (Uuid × MessagePayload)

namespace World

def inRoom (w : World) (r : Room) : List Socket := w.sockets.filter fun s => r ∈ s.rooms

/-- Emit to every socket in one of the rooms, except one socket. -/
def emit (w : World) (rooms : List Room) (except? : Option ℕ) (e : ServerEvent) : World :=
  { w with
    inbox := w.inbox++((w.sockets.filter fun s =>
      (∃ r ∈ rooms, r ∈ s.rooms) ∧ some s.id ≠ except?).map fun s => (s.id,s.user,e)) }

/-- `socketsJoin` for every socket in one of the rooms. -/
def socketsJoin (w : World) (rooms : List Room) (c : Uuid) : World :=
  { w with
    sockets := w.sockets.map fun s =>
      if ∃ r ∈ rooms, r ∈ s.rooms then s.join [.channel c] else s }

/-- `socketsLeave` for every socket in the room. -/
def socketsLeave (w : World) (room : Room) (c : Uuid) : World :=
  { w with sockets := w.sockets.map fun s => if room ∈ s.rooms then s.leave c else s }

/-- Change one socket of a user, if it is still connected. -/
def onSocket (w : World) (id : ℕ) (u : Uuid) (f : Socket → Socket) : World :=
  { w with sockets := w.sockets.map fun s => if s.id = id ∧ s.user = u then f s else s }

def connect (w : World) (u : Uuid) : World :=
  { w with
    sockets := w.sockets++[⟨w.connections,u,[],false,[]⟩]
    connections := w.connections+1 }

def disconnect (w : World) (id : ℕ) : World :=
  { w with sockets := w.sockets.filter fun s => s.id ≠ id }

end World

/-- What the environment decides at a step: whether the command or statement fails,
which side of a `Promise.all` goes first, whether a queue worker stalls, the random UUIDs
drawn, the clock, and the row an unordered `LIMIT 1` returns. -/
structure Choice where
  fail : Bool
  side : Bool
  stall : Bool
  ids : List Uuid
  now : ℕ
  pick : ℕ
  deriving DecidableEq, Repr

/-- Code outside the repository: Ed25519 verification of `${channelId}:${encryptedContent}`,
`hashtext` of the direct-message lock string of a sorted pair, and whether the ORM wraps
a driver error so that its `code` is no longer on the thrown value. -/
structure Externals where
  verify : Uuid → String → String → String → Bool
  dmLockKey : Uuid → Uuid → ℤ
  wrapsErrors : Bool

/-- `(err as { code?: string })?.code`. -/
def Externals.visibleCode (x : Externals) (err : DbError) : Option String :=
  if x.wrapsErrors then none else some err.code

/-- A statement that fails for a reason of its own: a lost connection, a deadlock, a
timeout. -/
def aborted : DbError := ⟨"57014",none⟩

end ZevraServer
