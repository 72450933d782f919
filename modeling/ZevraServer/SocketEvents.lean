import ZevraServer.CallSteps
import ZevraServer.LiveKit
import ZevraServer.Json

/-!
# The events of a socket

The handlers of `SocketGateway`, `ChatGateway` and `CallsGateway`, with the guard of the first
two. A handler issues commands to the services and gets answers, emits, and acknowledges its
event; the commands and emissions it makes are its effects, in their order. No handler issues
one command twice, so its answers are a function of the command, and they are arbitrary:
whatever other handlers do between two awaited steps shows in them only. What the validation
of a payload and the verification of a token answer is left open.
-/

namespace ZevraServer.SocketEvents

open Calls (SocketUser ActiveCall Refusal unitLength MAX_SDP_LENGTH MAX_CANDIDATE_LENGTH)
open LiveKit (getDmRoomName ROOM_NAME_RE)
open Raw.State (getGroupRoomName MAX_GROUP_TARGETS)

/-! ### Payloads -/

/-- A value of a payload; `other` is a number, a boolean or an object, as its JSON text. -/
inductive Js
  | undefined
  | null
  | text (s : String)
  | list (l : List Js)
  | other (json : String)

mutual

/-- `JSON.stringify(value ?? null)`. -/
def Js.stringify : Js → List Char
  | .undefined => ['n','u','l','l']
  | .null => ['n','u','l','l']
  | .text s => Json.quote s.toList
  | .list l => '['::Js.items l++[']']
  | .other json => json.toList

def Js.items : List Js → List Char
  | [] => []
  | [x] => x.stringify
  | x::y::l => x.stringify++ ','::Js.items (y::l)

end

abbrev Fields := List (String × Js)

/-- What a client sends with an event. -/
inductive Body
  | missing
  | object (fields : Fields)
  | other

def Fields.field (fs : Fields) (name : String) : Js := ((fs.find? (·.1 = name)).map (·.2)).getD .undefined

/-- `payload(data)`. -/
def Body.payload : Body → Fields
  | .object fs => fs
  | _ => []

/-- A string that `isUuid` accepts. -/
def Js.uuid? : Js → Option RawId
  | .text s => if isUuid s then some s else none
  | _ => none

def Js.text? : Js → Option String
  | .text s => some s
  | _ => none

/-- A list that `isUuidList` accepts. -/
def Js.uuids? (max : ℕ) : Js → Option (List RawId)
  | .list l => if l.length ≤ max then l.mapM Js.uuid? else none
  | _ => none

/-- Neither undefined nor null. -/
def Js.given : Js → Bool
  | .undefined => false
  | .null => false
  | _ => true

/-- The classes payloads are validated against. -/
inductive Dto
  | sendMessage | getMessages | markRead | reaction | presenceBulk | createChannel | channelId
  deriving DecidableEq, Repr

structure GetMessagesSocketDto where
  channelId : RawId
  limit : Option ℕ
  cursor : Option ℕ
  mode : Option String
  deriving DecidableEq, Repr

structure MarkReadSocketDto where
  channelId : RawId
  messageId : RawId
  deriving DecidableEq, Repr

structure ReactionDto where
  channelId : RawId
  messageId : RawId
  emoji : String
  deriving DecidableEq, Repr

structure CreateChannelDto where
  type : String
  name : Option String
  participantIds : List RawId
  deriving DecidableEq, Repr

/-- The instances of a class; those of `SendMessageDto` and `ChannelIdDto` are their fields, and of
`PresenceBulkDto` only `userIds` is there. -/
def Dto.Instance : Dto → Type
  | .sendMessage => Fields
  | .getMessages => GetMessagesSocketDto
  | .markRead => MarkReadSocketDto
  | .reaction => ReactionDto
  | .presenceBulk => Option (List RawId)
  | .createChannel => CreateChannelDto
  | .channelId => RawId

/-! ### Errors and acknowledgements -/

inductive SocketErrorCode
  | validationError | notAuthenticated | notMember | notFound | rateLimited | payloadTooLarge | internalError
  deriving DecidableEq, Repr

def SocketErrorCode.text : SocketErrorCode → String
  | .validationError => "VALIDATION_ERROR"
  | .notAuthenticated => "NOT_AUTHENTICATED"
  | .notMember => "NOT_MEMBER"
  | .notFound => "NOT_FOUND"
  | .rateLimited => "RATE_LIMITED"
  | .payloadTooLarge => "PAYLOAD_TOO_LARGE"
  | .internalError => "INTERNAL_ERROR"

def httpStatusToSocketCode (status : ℕ) : SocketErrorCode :=
  if status = 400 ∨ status = 422 ∨ status = 409 then .validationError
  else if status = 401 then .notAuthenticated
  else if status = 403 then .notMember
  else if status = 404 then .notFound
  else if status = 429 then .rateLimited
  else if status = 413 then .payloadTooLarge
  else .internalError

/-- The status and the message of `mapPgError`. -/
def mapPgError (code : String) : ℕ × String :=
  if code = "23505" then (409,"Resource already exists")
  else if code = "23503" then (404,"Referenced resource not found")
  else if code ∈ ["22P02","22001","22003","23502","23514"] then (400,"Invalid input")
  else (500,"Internal server error")

/-- A `SocketError`, an `HttpException`, an error with an SQLSTATE, or any other. -/
inductive Thrown
  | socket (code : SocketErrorCode) (message : String)
  | http (status : ℕ) (message : String)
  | pg (code : String)
  | other
  deriving DecidableEq, Repr

/-- A value of an acknowledgement or of an emitted event; `json` is an object of a service, as its
JSON text. -/
inductive Value
  | text (s : String)
  | number (n : ℕ)
  | flag (b : Bool)
  | texts (l : List String)
  | json (s : String)
  | null
  deriving DecidableEq, Repr

abbrev Values := List (String × Value)

/-- `success` has the fields beside `success: true`. -/
inductive Ack
  | success (fields : Values)
  | refused (r : Refusal)
  deriving DecidableEq, Repr

def refuse (error message : String) : Ack := .refused ⟨error,message,none⟩

def socketError (code : SocketErrorCode) (message : String) : Ack := refuse code.text message

def invalid (message : String) : Ack := socketError .validationError message

def notAuthenticated : Ack := socketError .notAuthenticated "Not authenticated"

def toSocketError : Thrown → Ack
  | .socket code message => socketError code message
  | .http status message =>
    let code := httpStatusToSocketCode status
    socketError code (if code = .internalError then "Internal server error" else message)
  | .pg code => socketError (httpStatusToSocketCode (mapPgError code).1) (mapPgError code).2
  | .other => socketError .internalError "Internal server error"

/-! ### Commands -/

/-- What the handlers ask of the services, of the rooms and of the timers of typing. -/
inductive Command
  | checkRateLimit (scope : String) (userId : RawId)
  | isOnline (userId : RawId)
  | getOnlineUsers (userIds : List RawId)
  | refreshSocket (userId : RawId) (socketId : String)
  | setOnline (userId : RawId)
  | getUserDMPeers (userId : RawId)
  | getUnreadCounts (userId : RawId)
  | deliverPendingMessages (userId : RawId)
  | send (userId : RawId) (dto : Fields) (exceptSocketId : String)
  | getMessages (channelId userId : RawId) (limit : ℕ) (cursor : Option ℕ) (mode : Option String)
  | markRead (userId channelId messageId : RawId)
  | createChannel (userId : RawId) (participantIds : List RawId) (type : String) (name : Option String)
  | isMember (channelId userId : RawId)
  | addReaction (user : SocketUser) (channelId messageId : RawId) (emoji : String)
  | removeReaction (user : SocketUser) (channelId messageId : RawId) (emoji : String)
  | setTyping (channelId userId : RawId)
  | clearTyping (channelId userId : RawId)
  | join (channelId : RawId)
  | leave (channelId : RawId)
  | setTimer (socketId : String) (channelId : RawId)
  | clearTimer (socketId : String) (channelId : RawId)
  | getActiveCall (userId : RawId)
  | createCallLog (type : Raw.CallType) (initiatorId : RawId) (calleeId roomName channelId : Option String)
  | createCall (initiatorId targetId : RawId) (callLogId : String)
  | acceptCall (call : ActiveCall)
  | updateCallLogAccepted (callLogId : String)
  | updateCallLogRejected (callLogId : String)
  | cleanupCall (callId : String)
  | endCallLog (callLogId : String) (callerId calleeId : RawId) (startedAt : ℕ)
  | getUsernames (userIds : List RawId)
  | authorizeRoomAccess (roomName : String) (userId : RawId)
  | createRoom (roomName : String) (maxParticipants : ℕ)
  | generateToken (roomName : String) (userId : RawId) (username : String)
  | getParticipants (roomName : String)
  | isConfigured

/-- What a command answers: of a message, a page and a reaction the JSON text. -/
def Command.Result : Command → Type
  | .checkRateLimit _ _ => Bool
  | .isOnline _ => Bool
  | .getOnlineUsers _ => List RawId
  | .getUserDMPeers _ => List RawId
  | .getUnreadCounts _ => String
  | .deliverPendingMessages _ => List String × ℕ
  | .send _ _ _ => String
  | .getMessages _ _ _ _ _ => String
  | .markRead _ _ _ => Bool
  | .createChannel _ _ _ _ => RawId × Bool
  | .isMember _ _ => Bool
  | .addReaction _ _ _ _ => String × List String
  | .removeReaction _ _ _ _ => String
  | .getActiveCall _ => Option ActiveCall
  | .createCallLog _ _ _ _ _ => String
  | .createCall _ _ _ => ActiveCall
  | .getUsernames _ => List SocketUser
  | .authorizeRoomAccess _ _ => Bool
  | .generateToken _ _ _ => Option String
  | .getParticipants _ => ℕ
  | .isConfigured => Bool
  | _ => Unit

/-- The commands that only read. -/
def Command.reads : Command → Bool
  | .isOnline _ => true
  | .getOnlineUsers _ => true
  | .getUserDMPeers _ => true
  | .getUnreadCounts _ => true
  | .getMessages _ _ _ _ _ => true
  | .isMember _ _ => true
  | .getActiveCall _ => true
  | .getUsernames _ => true
  | .authorizeRoomAccess _ _ => true
  | .generateToken _ _ _ => true
  | .getParticipants _ => true
  | .isConfigured => true
  | _ => false

/-- The commands of `CallsGateway`: its services throw no exception of their own, only what a
statement or a client throws. -/
def Command.ofCalls : Command → Bool
  | .checkRateLimit _ _ => true
  | .isOnline _ => true
  | .getActiveCall _ => true
  | .createCallLog _ _ _ _ _ => true
  | .createCall _ _ _ => true
  | .acceptCall _ => true
  | .updateCallLogAccepted _ => true
  | .updateCallLogRejected _ => true
  | .cleanupCall _ => true
  | .endCallLog _ _ _ _ => true
  | .getUsernames _ => true
  | .authorizeRoomAccess _ _ => true
  | .createRoom _ _ => true
  | .generateToken _ _ _ => true
  | .getParticipants _ => true
  | .isConfigured => true
  | _ => false

def Thrown.bare : Thrown → Bool
  | .pg _ => true
  | .other => true
  | _ => false

/-- Why a token is not accepted. -/
inductive JwtError
  | tokenExpired
  | other
  deriving DecidableEq, Repr

/-- `sub` and `exp`. -/
structure JwtPayload where
  sub : RawId
  exp : Option ℕ
  deriving DecidableEq, Repr

/-- What a handler is answered: by the validation of a payload, by the verification of a token, by
the query for its active user and by every command. `later` is the clock when a handler that has
waited reads it. -/
structure Answers where
  validate : (d : Dto) → Fields → Except String d.Instance
  verify : String → Except JwtError JwtPayload
  activeUser : RawId → Except Unit (Option SocketUser)
  answer : (c : Command) → Except Thrown c.Result
  bare : ∀ (c : Command) (t : Thrown), c.ofCalls = true → answer c = .error t → t.bare = true
  later : ℕ

/-! ### Effects -/

inductive Effect
  | error (code message : String)
  | disconnect
  | heartbeatAck (timestamp : ℕ)
  | command (c : Command)
  | emitToUser (userId : RawId) (event : String) (data : Values)
  | emitToChannel (channelId : RawId) (event : String) (data : Values) (exceptUserId : RawId)

/-- A computation that has effects and may throw. -/
def Handler (α : Type) : Type := Answers → List Effect → Except Thrown α × List Effect

namespace Handler

variable {α β : Type}

instance : Monad Handler where
  pure x := fun _ es => (.ok x,es)
  bind h f := fun a es =>
    match h a es with
    | (.ok x,es) => f x a es
    | (.error t,es) => (.error t,es)

def fail (t : Thrown) : Handler α := fun _ es => (.error t,es)

def ask (c : Command) : Handler c.Result := fun a es => (a.answer c,es++[.command c])

def tell (e : Effect) : Handler Unit := fun _ es => (.ok (),es++[e])

def clock : Handler ℕ := fun a es => (.ok a.later,es)

/-- `validatePayload`. -/
def validatePayload (d : Dto) (data : Body) : Handler d.Instance := fun a es =>
  match data with
  | .object fs =>
    match a.validate d fs with
    | .ok x => (.ok x,es)
    | .error message => (.error (.socket .validationError message),es)
  | _ => (.error (.socket .validationError "Invalid payload"),es)

/-- The body of a handler under its `catch`. -/
def attempt (h : Handler Ack) : Handler Ack := fun a es =>
  match h a es with
  | (.ok r,es) => (.ok r,es)
  | (.error t,es) => (.ok (toSocketError t),es)

/-- `.catch(() => null)`. -/
def orNull (h : Handler (Option α)) : Handler (Option α) := fun a es =>
  match h a es with
  | (.ok r,es) => (.ok r,es)
  | (.error _,es) => (.ok none,es)

def emitToUser (userId : RawId) (event : String) (data : Values) : Handler Unit :=
  tell (.emitToUser userId event data)

end Handler

open Handler

/-! ### `SocketAuthGuard` -/

/-- `client.data`. -/
structure SocketData where
  user : Option SocketUser
  tokenExp : Option ℕ
  deriving DecidableEq, Repr

def isTokenExpired (data : SocketData) (nowMs : ℕ) : Bool := data.tokenExp.any fun exp => exp*1000 ≤ nowMs

/-- `token` is what `extractSocketToken` finds. -/
structure Client where
  id : String
  token : Option String
  data : SocketData
  deriving DecidableEq, Repr

/-- The user and the expiry of a socket that the guard lets pass, or the code and the message with
which it is rejected. -/
def canActivate (client : Client) (nowMs : ℕ) (a : Answers) :
    Except (String × String) (SocketUser × Option ℕ) :=
  match client.data.user with
  | some user =>
    if isTokenExpired client.data nowMs then .error ("TOKEN_EXPIRED","TOKEN_EXPIRED")
    else .ok (user,client.data.tokenExp)
  | none =>
    match client.token with
    | none => .error ("NO_TOKEN","No token provided")
    | some token =>
      match a.verify token with
      | .error .tokenExpired => .error ("TOKEN_EXPIRED","TOKEN_EXPIRED")
      | .error .other => .error ("INVALID_TOKEN","INVALID_TOKEN")
      | .ok payload =>
        match a.activeUser payload.sub with
        | .error _ => .error ("INVALID_TOKEN","INVALID_TOKEN")
        | .ok none => .error ("USER_NOT_FOUND","User not found")
        | .ok (some user) => .ok (user,payload.exp)

/-- The part of `handleConnection` that sets `client.data`. -/
def authenticate (client : Client) (a : Answers) : Except (String × String) (SocketUser × Option ℕ) :=
  match client.token with
  | none => .error ("NOT_AUTHENTICATED","Authentication required")
  | some token =>
    match a.verify token with
    | .error .tokenExpired => .error ("TOKEN_EXPIRED","Token expired")
    | .error .other => .error ("NOT_AUTHENTICATED","Authentication required")
    | .ok payload =>
      match a.activeUser payload.sub with
      | .ok (some user) => .ok (user,payload.exp)
      | _ => .error ("NOT_AUTHENTICATED","Authentication required")

/-! ### `ChatGateway` -/

def MAX_ENCRYPTED_CONTENT_BYTES : ℕ := 10*1024

def limit (scope : String) (userId : RawId) (message : String) : Handler Unit := do
  let allowed : Bool ← ask (.checkRateLimit scope userId)
  if !allowed then fail (.socket .rateLimited message)

def tooLarge (data : Body) : Bool :=
  match data.payload.field "encryptedContent" with
  | .text s => MAX_ENCRYPTED_CONTENT_BYTES < s.utf8ByteSize
  | _ => false

def handleSendMessage (clientId : String) (user : SocketUser) (data : Body) : Handler Ack :=
  attempt do
    limit "send" user.id "Too many messages"
    if tooLarge data then fail (.socket .payloadTooLarge "Message exceeds 10KB limit")
    let dto : Fields ← validatePayload .sendMessage data
    let message : String ← ask (.send user.id dto clientId)
    return .success [("message",.json message)]

def handleGetMessages (user : SocketUser) (data : Body) : Handler Ack :=
  attempt do
    limit "getmsg" user.id "Too many requests"
    let dto : GetMessagesSocketDto ← validatePayload .getMessages data
    let page : String ← ask (.getMessages dto.channelId user.id (dto.limit.getD 50) dto.cursor dto.mode)
    return .success [("page",.json page)]

def handleMarkRead (user : SocketUser) (data : Body) : Handler Ack :=
  attempt do
    let dto : MarkReadSocketDto ← validatePayload .markRead data
    let advanced : Bool ← ask (.markRead user.id dto.channelId dto.messageId)
    return .success [("advanced",.flag advanced)]

def handleGetUnread (user : SocketUser) : Handler Ack :=
  attempt do
    let counts : String ← ask (.getUnreadCounts user.id)
    return .success [("counts",.json counts)]

def handleGetPending (user : SocketUser) : Handler Ack :=
  attempt do
    limit "pending" user.id "Too many requests"
    let r : List String × ℕ ← ask (.deliverPendingMessages user.id)
    return .success [("count",.number r.1.length),("messages",.texts r.1),("hasMore",.flag (0 < r.2))]

def handleReactionAdd (user : SocketUser) (data : Body) : Handler Ack :=
  attempt do
    limit "reaction" user.id "Too many requests"
    let dto : ReactionDto ← validatePayload .reaction data
    let r : String × List String ← ask (.addReaction user dto.channelId dto.messageId dto.emoji)
    return .success [("action",.text r.1),("replaced",.texts r.2)]

def handleReactionRemove (user : SocketUser) (data : Body) : Handler Ack :=
  attempt do
    limit "reaction" user.id "Too many requests"
    let dto : ReactionDto ← validatePayload .reaction data
    let action : String ← ask (.removeReaction user dto.channelId dto.messageId dto.emoji)
    return .success [("action",.text action)]

/-- The alias `reaction:removed`. -/
def handleReactionRemoveLegacy (user : SocketUser) (data : Body) : Handler Ack := handleReactionRemove user data

/-! ### `SocketGateway` -/

def handlePresenceBulk (user : SocketUser) (data : Body) : Handler Ack :=
  attempt do
    let dto : Option (List RawId) ←
      validatePayload .presenceBulk (match data with | .missing => .object [] | data => data)
    let userIds : List RawId := dto.getD []
    let userIds : List RawId ← if userIds.length = 0 then ask (.getUserDMPeers user.id) else pure userIds
    let online : List RawId ← ask (.getOnlineUsers userIds)
    return .success [("online",.texts online)]

def handleCreateOrJoin (user : SocketUser) (data : Body) : Handler Ack :=
  attempt do
    let dto : CreateChannelDto ← validatePayload .createChannel data
    let r : RawId × Bool ← ask (.createChannel user.id dto.participantIds dto.type dto.name)
    ask (.join r.1)
    return .success [("channelId",.text r.1),("created",.flag r.2)]

def requireMember (channelId userId : RawId) : Handler Unit := do
  let member : Bool ← ask (.isMember channelId userId)
  if !member then fail (.socket .notMember "Not a member of this channel")

def handleJoinChannel (user : SocketUser) (data : Body) : Handler Ack :=
  attempt do
    let channelId : RawId ← validatePayload .channelId data
    requireMember channelId user.id
    ask (.join channelId)
    return .success []

def handleLeaveChannel (user : SocketUser) (data : Body) : Handler Ack :=
  attempt do
    let channelId : RawId ← validatePayload .channelId data
    requireMember channelId user.id
    ask (.leave channelId)
    return .success []

def emitTyping (event : String) (user : SocketUser) (channelId : RawId) : Handler Unit :=
  tell (.emitToChannel channelId event
    [("userId",.text user.id),("username",.text user.username),("channelId",.text channelId)] user.id)

def stopTyping (user : SocketUser) (channelId : RawId) : Handler Unit := do
  tell (.command (.clearTyping channelId user.id))
  emitTyping "typing:stop" user channelId

def handleTypingStart (clientId : String) (user : SocketUser) (data : Body) : Handler Ack :=
  attempt do
    let channelId : RawId ← validatePayload .channelId data
    limit "typing" user.id "Too many typing events"
    requireMember channelId user.id
    tell (.command (.clearTimer clientId channelId))
    ask (.setTyping channelId user.id)
    emitTyping "typing:start" user channelId
    tell (.command (.setTimer clientId channelId))
    return .success []

def handleTypingStop (clientId : String) (user : SocketUser) (data : Body) : Handler Ack :=
  attempt do
    let channelId : RawId ← validatePayload .channelId data
    limit "typing" user.id "Too many typing events"
    requireMember channelId user.id
    tell (.command (.clearTimer clientId channelId))
    stopTyping user channelId
    return .success []

def rejectConnection (code message : String) : Handler Unit := do
  tell (.error code message)
  tell .disconnect

def beat (client : Client) (nowMs : ℕ) : Handler Bool :=
  match client.data.user with
  | none => pure false
  | some user => do
    if isTokenExpired client.data nowMs then
      rejectConnection "TOKEN_EXPIRED" "Token expired"
      return false
    ask (.refreshSocket user.id client.id)
    ask (.setOnline user.id)
    return true

def handleHeartbeat (client : Client) (nowMs : ℕ) : Handler Ack :=
  match client.data.user with
  | none => pure (socketError .notAuthenticated "Authentication required")
  | some _ => do
    let beaten ← beat client nowMs
    if !beaten then return socketError .notAuthenticated "Token expired"
    let timestamp ← clock
    tell (.heartbeatAck timestamp)
    return .success [("timestamp",.number timestamp)]

/-! ### `CallsGateway` -/

/-- The handlers that acknowledge: an error is answered, and so is a socket without user. -/
def answered (user : Option SocketUser) (h : SocketUser → Handler Ack) : Handler Ack :=
  attempt (match user with
    | none => pure notAuthenticated
    | some user => h user)

def tooManyCalls : Ack := socketError .rateLimited "Too many call attempts"

def alreadyInCall : Ack := refuse "ALREADY_IN_CALL" "You are already in a call"

def targetBusy : Ack := refuse "TARGET_BUSY" "User is busy"

def callNotFound : Ack := refuse "INVALID_CALL" "Call not found"

def noTarget : Ack := refuse "NO_TARGET" "A target user is required"

def notConfigured : Ack := refuse "LIVEKIT_NOT_CONFIGURED" "Calls are not available"

/-- The data of `call:incoming`. -/
def incoming (user : SocketUser) (call : ActiveCall) : Values :=
  [("callId",.text call.callId),("callerId",.text user.id),("callerUsername",.text user.username)]

def handleInvite (user : Option SocketUser) (data : Body) : Handler Ack :=
  answered user fun user => do
    match ((data.payload.field "targetUserId").uuid?).filter (· ≠ user.id) with
    | none => return invalid "targetUserId must be a valid user id"
    | some targetUserId =>
      let allowed : Bool ← ask (.checkRateLimit "call" user.id)
      if !allowed then return tooManyCalls
      let active : Option ActiveCall ← ask (.getActiveCall user.id)
      if active.isSome then return alreadyInCall
      let busy : Option ActiveCall ← ask (.getActiveCall targetUserId)
      if busy.isSome then return targetBusy
      let online : Bool ← ask (.isOnline targetUserId)
      if !online then return refuse "TARGET_OFFLINE" "User is offline"
      let callLogId : String ← ask (.createCallLog .webrtc user.id (some targetUserId) none none)
      let call : ActiveCall ← ask (.createCall user.id targetUserId callLogId)
      emitToUser targetUserId "call:incoming" (incoming user call)
      return .success [("callId",.text call.callId),("callLogId",.text callLogId)]

/-- The call that an event names, if its user is in it. -/
def namedCall (user : SocketUser) (callId : RawId) : Handler (Option ActiveCall) := do
  let call : Option ActiveCall ← ask (.getActiveCall user.id)
  return call.filter (·.callId = callId)

def handleAccept (user : Option SocketUser) (data : Body) : Handler Ack :=
  answered user fun user => do
    match (data.payload.field "callId").uuid? with
    | none => return invalid "callId must be a valid id"
    | some callId =>
      match (← namedCall user callId).filter (·.targetId = user.id) with
      | none => return callNotFound
      | some call =>
        ask (.acceptCall call)
        match call.callLogId with
        | none => pure ()
        | some callLogId => ask (.updateCallLogAccepted callLogId)
        emitToUser call.initiatorId "call:accepted"
          [("callId",.text call.callId),("calleeId",.text user.id),("calleeUsername",.text user.username)]
        return .success []

/-- `call.callLogId ?? createCallLog(…)`. -/
def callLogOf (call : ActiveCall) : Handler String :=
  match call.callLogId with
  | some callLogId => pure callLogId
  | none => ask (.createCallLog .webrtc call.initiatorId (some call.targetId) none none)

def handleReject (user : Option SocketUser) (data : Body) : Handler Ack :=
  answered user fun user => do
    match (data.payload.field "callId").uuid? with
    | none => return invalid "callId must be a valid id"
    | some callId =>
      match ← namedCall user callId with
      | none => return callNotFound
      | some call =>
        let callLogId ← callLogOf call
        ask (.updateCallLogRejected callLogId)
        ask (.cleanupCall call.callId)
        emitToUser (call.getOtherUserId user.id) "call:rejected" [("callId",.text call.callId)]
        return .success []

def relayTarget (user : Option SocketUser) (callId : Js) : Handler (Option (SocketUser × ActiveCall)) := do
  match user,callId.uuid? with
  | some user,some callId =>
    let allowed : Bool ← ask (.checkRateLimit "call-signal" user.id)
    if !allowed then return none
    return (← namedCall user callId).map fun call => (user,call)
  | _,_ => return none

/-- The text of an offer or an answer. -/
def sdp? (data : Body) : Option String :=
  ((data.payload.field "sdp").text?).filter fun sdp => 0 < unitLength sdp && unitLength sdp ≤ MAX_SDP_LENGTH

/-- What `call:offer` and `call:answer` share. -/
def relaySdp (user : Option SocketUser) (data : Body) (event : String) (fields : SocketUser → String → Values) :
    Handler Unit := do
  match sdp? data with
  | none => return
  | some sdp =>
    match ← orNull (relayTarget user (data.payload.field "callId")) with
    | none => return
    | some ctx => emitToUser (ctx.2.getOtherUserId ctx.1.id) event (("callId",.text ctx.2.callId)::fields ctx.1 sdp)

def handleOffer (user : Option SocketUser) (data : Body) : Handler Unit :=
  relaySdp user data "call:offer" fun user sdp =>
    [("offer",.text sdp),("callerId",.text user.id),("callerUsername",.text user.username)]

def handleAnswer (user : Option SocketUser) (data : Body) : Handler Unit :=
  relaySdp user data "call:answer" fun user sdp =>
    [("answer",.text sdp),("calleeId",.text user.id),("calleeUsername",.text user.username)]

def Js.isUndefined : Js → Bool
  | .undefined => true
  | _ => false

def handleIceCandidate (user : Option SocketUser) (data : Body) : Handler Unit := do
  let candidate := data.payload.field "candidate"
  if candidate.isUndefined || MAX_CANDIDATE_LENGTH < unitLength (String.ofList candidate.stringify) then return
  match ← orNull (relayTarget user (data.payload.field "callId")) with
  | none => return
  | some ctx =>
    emitToUser (ctx.2.getOtherUserId ctx.1.id) "call:ice-candidate"
      [("callId",.text ctx.2.callId),("candidate",.json (String.ofList candidate.stringify)),("from",.text ctx.1.id)]

def finishConnectedCall (call : ActiveCall) : Handler Unit := do
  let callLogId ← callLogOf call
  ask (.endCallLog callLogId call.initiatorId call.targetId call.startedAt)

def handleHangup (user : Option SocketUser) (data : Body) : Handler Ack :=
  answered user fun user => do
    match (data.payload.field "callId").uuid? with
    | none => return invalid "callId must be a valid id"
    | some callId =>
      match ← namedCall user callId with
      | none => return callNotFound
      | some call =>
        if call.status = .connected then finishConnectedCall call
        ask (.cleanupCall call.callId)
        emitToUser (call.getOtherUserId user.id) "call:hangup" [("callId",.text call.callId)]
        return .success []

/-- The channel of a payload, if one is given, or the refusal of a value that is no id. -/
def channelId? (data : Body) : Except Ack (Option RawId) :=
  let channelId := data.payload.field "channelId"
  if !channelId.given then .ok none
  else match channelId.uuid? with
    | none => .error (invalid "channelId must be a valid id")
    | some channelId => .ok (some channelId)

def nameOf? (names : List SocketUser) (userId : RawId) : Option String :=
  (names.find? (·.id = userId)).map (·.username)

/-- The invitations of a group call, one candidate after the other. -/
def inviteMembers (user : SocketUser) (roomName : String) (names : List SocketUser) : List RawId → Handler Unit
  | [] => pure ()
  | targetId::rest => do
    match (nameOf? names targetId).filter (· ≠ "") with
    | none => inviteMembers user roomName names rest
    | some name =>
      let authorized : Bool ← ask (.authorizeRoomAccess roomName targetId)
      if !authorized then inviteMembers user roomName names rest
      else
        let targetToken : Option String ← ask (.generateToken roomName targetId name)
        match targetToken with
        | none => pure ()
        | some targetToken =>
          emitToUser targetId "livekit:group-invite" [("roomName",.text roomName),("token",.text targetToken),
            ("creatorId",.text user.id),("creatorUsername",.text user.username)]
        inviteMembers user roomName names rest

def optional (t : Option String) : Value :=
  match t with
  | none => .null
  | some t => .text t

def initiateLiveKitGroupCall (user : SocketUser) (channelId : RawId) (targetUserIds : List RawId) : Handler Ack := do
  let configured : Bool ← ask .isConfigured
  if !configured then return notConfigured
  let roomName := getGroupRoomName channelId
  ask (.createRoom roomName 10)
  let callLogId : String ← ask (.createCallLog .livekit user.id none (some roomName) (some channelId))
  let creatorToken : Option String ← ask (.generateToken roomName user.id user.username)
  let candidates := (targetUserIds.filter (· ≠ user.id)).eraseDups
  let names : List SocketUser ← ask (.getUsernames candidates)
  inviteMembers user roomName names candidates
  return .success [("method",.text "LIVEKIT"),("roomName",.text roomName),("token",optional creatorToken),
    ("callLogId",.text callLogId)]

/-- `call:initiate` of the type `DM`, once its user is found free. -/
def initiateDirect (user : SocketUser) (targetUserIds : List RawId) (channelId : Option RawId) : Handler Ack := do
  match (targetUserIds.head?).filter fun t => t ≠ "" && t ≠ user.id with
  | none => return noTarget
  | some targetId =>
    let busy : Option ActiveCall ← ask (.getActiveCall targetId)
    if busy.isSome then return targetBusy
    let online : Bool ← ask (.isOnline targetId)
    if !online then return .refused ⟨"TARGET_OFFLINE","User is offline",some "LIVEKIT"⟩
    let callLogId : String ← ask (.createCallLog .webrtc user.id (some targetId) none channelId)
    let call : ActiveCall ← ask (.createCall user.id targetId callLogId)
    let names : List SocketUser ← ask (.getUsernames [targetId])
    emitToUser user.id "call:method-selected" [("callId",.text call.callId),("method",.text "WEBRTC"),
      ("targetUserId",.text targetId),("targetUsername",.text ((nameOf? names targetId).getD "Unknown"))]
    emitToUser targetId "call:incoming" (incoming user call)
    return .success [("method",.text "WEBRTC"),("callId",.text call.callId),("callLogId",.text callLogId)]

def handleInitiate (user : Option SocketUser) (data : Body) : Handler Ack :=
  answered user fun user => do
    let type := (data.payload.field "type").text?
    if type ≠ some "DM" ∧ type ≠ some "GROUP" then return invalid "type must be DM or GROUP"
    match (data.payload.field "targetUserIds").uuids? MAX_GROUP_TARGETS with
    | none => return invalid "targetUserIds must be a list of user ids"
    | some targetUserIds =>
      match channelId? data with
      | .error r => return r
      | .ok channelId =>
        let allowed : Bool ← ask (.checkRateLimit "call" user.id)
        if !allowed then return tooManyCalls
        let active : Option ActiveCall ← ask (.getActiveCall user.id)
        if active.isSome then return alreadyInCall
        if type ≠ some "GROUP" then initiateDirect user targetUserIds channelId
        else match channelId with
          | none => return refuse "CHANNEL_REQUIRED" "channelId is required"
          | some channelId =>
            let authorized : Bool ← ask (.authorizeRoomAccess (getGroupRoomName channelId) user.id)
            if !authorized then return socketError .notMember "Not a member of this channel"
            initiateLiveKitGroupCall user channelId targetUserIds

/-- The invitation of the fallback; a target without name gets none. -/
def inviteTarget (user : SocketUser) (roomName : String) (targetId : RawId) : Option String → Handler Unit
  | none => pure ()
  | some name => do
    let targetToken : Option String ← ask (.generateToken roomName targetId name)
    match targetToken with
    | none => pure ()
    | some targetToken =>
      emitToUser targetId "livekit:incoming" [("roomName",.text roomName),("token",.text targetToken),
        ("callerId",.text user.id),("callerUsername",.text user.username)]

def handleLiveKitFallback (user : Option SocketUser) (data : Body) : Handler Ack :=
  answered user fun user => do
    match (data.payload.field "targetUserIds").uuids? MAX_GROUP_TARGETS with
    | none => return invalid "targetUserIds must be a list of user ids"
    | some targetUserIds =>
      match channelId? data with
      | .error r => return r
      | .ok channelId =>
        let configured : Bool ← ask .isConfigured
        if !configured then return notConfigured
        let allowed : Bool ← ask (.checkRateLimit "call" user.id)
        if !allowed then return tooManyCalls
        match (targetUserIds.head?).filter fun t => t ≠ "" && t ≠ user.id with
        | none => return noTarget
        | some targetId =>
          let roomName := getDmRoomName user.id targetId
          ask (.createRoom roomName 2)
          let callLogId : String ← ask (.createCallLog .livekit user.id (some targetId) (some roomName) channelId)
          let token : Option String ← ask (.generateToken roomName user.id user.username)
          match token with
          | none => return refuse "TOKEN_FAILED" "Could not start the call"
          | some token =>
            let names : List SocketUser ← ask (.getUsernames [targetId])
            inviteTarget user roomName targetId ((nameOf? names targetId).filter (· ≠ ""))
            return .success [("method",.text "LIVEKIT"),("roomName",.text roomName),("token",.text token),
              ("callLogId",.text callLogId)]

def handleLiveKitActive (user : Option SocketUser) (data : Body) : Handler Ack :=
  answered user fun user => do
    match (data.payload.field "channelId").uuid? with
    | none => return invalid "channelId must be a valid id"
    | some channelId =>
      let roomName := getGroupRoomName channelId
      let authorized : Bool ← ask (.authorizeRoomAccess roomName user.id)
      if !authorized then return socketError .notMember "Not a member of this channel"
      let configured : Bool ← ask .isConfigured
      if !configured then return .success [("active",.flag false),("participantCount",.number 0)]
      let participants : ℕ ← ask (.getParticipants roomName)
      return .success [("active",.flag (0 < participants)),("participantCount",.number participants),
        ("roomName",.text roomName)]

/-- A room name that `ROOM_NAME_RE` accepts. -/
def Js.roomName? (v : Js) : Option String := v.text?.filter fun s => ROOM_NAME_RE.test s.toList

def handleLiveKitJoinGroup (user : Option SocketUser) (data : Body) : Handler Ack :=
  answered user fun user => do
    match (data.payload.field "roomName").roomName? with
    | none => return invalid "roomName is invalid"
    | some roomName =>
      let configured : Bool ← ask .isConfigured
      if !configured then return notConfigured
      let authorized : Bool ← ask (.authorizeRoomAccess roomName user.id)
      if !authorized then return socketError .notMember "Not allowed to join this call"
      let token : Option String ← ask (.generateToken roomName user.id user.username)
      match token with
      | none => return refuse "TOKEN_FAILED" "Could not join the call"
      | some token => return .success [("token",.text token),("roomName",.text roomName)]

/-! ### The events and their guards -/

inductive Event
  | sendMessage (data : Body)
  | getMessages (data : Body)
  | markRead (data : Body)
  | getUnread
  | getPending
  | reactionAdd (data : Body)
  | reactionRemove (data : Body)
  | reactionRemoved (data : Body)
  | presenceBulk (data : Body)
  | createOrJoin (data : Body)
  | joinChannel (data : Body)
  | leaveChannel (data : Body)
  | typingStart (data : Body)
  | typingStop (data : Body)
  | heartbeat
  | callInvite (data : Body)
  | callAccept (data : Body)
  | callReject (data : Body)
  | callOffer (data : Body)
  | callAnswer (data : Body)
  | callIceCandidate (data : Body)
  | callHangup (data : Body)
  | callInitiate (data : Body)
  | callLiveKitFallback (data : Body)
  | callLiveKitActive (data : Body)
  | callLiveKitJoinGroup (data : Body)

/-- What an event has come to: its effects, its acknowledgement and the data of its socket. -/
structure Outcome where
  effects : List Effect
  ack : Option Ack
  data : SocketData

namespace Client

variable (client : Client) (nowMs : ℕ) (a : Answers)

/-- A handler without guard. An error that it throws is not acknowledged. -/
def plain (h : Handler (Option Ack)) : Outcome :=
  match h a [] with
  | (.ok ack,es) => ⟨es,ack,client.data⟩
  | (.error _,es) => ⟨es,none,client.data⟩

def acked (h : Handler Ack) : Outcome := client.plain a (some <$> h)

def silent (h : Handler Unit) : Outcome := client.plain a ((fun _ => none) <$> h)

/-- A handler under `@UseGuards(SocketAuthGuard)`. -/
def guarded (h : SocketUser → Handler Ack) : Outcome :=
  match canActivate client nowMs a with
  | .error (code,message) => ⟨[.error code message,.disconnect],none,client.data⟩
  | .ok (user,tokenExp) => { client with data := ⟨some user,tokenExp⟩ : Client }.acked a (h user)

/-- The handling of an event. The guard stands on the class of `ChatGateway` and on the methods of
`SocketGateway` but `handleHeartbeat`, and `CallsGateway` has none. -/
def serve : Event → Outcome
  | .sendMessage data => client.guarded nowMs a (handleSendMessage client.id · data)
  | .getMessages data => client.guarded nowMs a (handleGetMessages · data)
  | .markRead data => client.guarded nowMs a (handleMarkRead · data)
  | .getUnread => client.guarded nowMs a handleGetUnread
  | .getPending => client.guarded nowMs a handleGetPending
  | .reactionAdd data => client.guarded nowMs a (handleReactionAdd · data)
  | .reactionRemove data => client.guarded nowMs a (handleReactionRemove · data)
  | .reactionRemoved data => client.guarded nowMs a (handleReactionRemoveLegacy · data)
  | .presenceBulk data => client.guarded nowMs a (handlePresenceBulk · data)
  | .createOrJoin data => client.guarded nowMs a (handleCreateOrJoin · data)
  | .joinChannel data => client.guarded nowMs a (handleJoinChannel · data)
  | .leaveChannel data => client.guarded nowMs a (handleLeaveChannel · data)
  | .typingStart data => client.guarded nowMs a (handleTypingStart client.id · data)
  | .typingStop data => client.guarded nowMs a (handleTypingStop client.id · data)
  | .heartbeat => client.acked a (handleHeartbeat client nowMs)
  | .callInvite data => client.acked a (handleInvite client.data.user data)
  | .callAccept data => client.acked a (handleAccept client.data.user data)
  | .callReject data => client.acked a (handleReject client.data.user data)
  | .callOffer data => client.silent a (handleOffer client.data.user data)
  | .callAnswer data => client.silent a (handleAnswer client.data.user data)
  | .callIceCandidate data => client.silent a (handleIceCandidate client.data.user data)
  | .callHangup data => client.acked a (handleHangup client.data.user data)
  | .callInitiate data => client.acked a (handleInitiate client.data.user data)
  | .callLiveKitFallback data => client.acked a (handleLiveKitFallback client.data.user data)
  | .callLiveKitActive data => client.acked a (handleLiveKitActive client.data.user data)
  | .callLiveKitJoinGroup data => client.acked a (handleLiveKitJoinGroup client.data.user data)

end Client

/-! ### The life of a socket -/

/-- The connection is set up, or an event arrives when the clock shows `nowMs`. -/
inductive Occurrence
  | connection (a : Answers)
  | event (e : Event) (nowMs : ℕ) (a : Answers)

/-- The socket after an occurrence; a rejected one has gone, and its data stay as they are. -/
def Client.next (client : Client) : Occurrence → Client
  | .connection a =>
    match authenticate client a with
    | .ok (user,tokenExp) => { client with data := ⟨some user,tokenExp⟩ }
    | .error _ => client
  | .event e nowMs a => { client with data := (client.serve nowMs a e).data }

/-- A socket as it is created. -/
def fresh (id : String) (token : Option String) : Client := ⟨id,token,⟨none,none⟩⟩

def Client.after (client : Client) (os : List Occurrence) : Client := os.foldl Client.next client

/-! ### Events on an expired token -/

def Ack.isSuccess : Ack → Bool
  | .success _ => true
  | .refused _ => false

/-- A change of state, or an event for someone else than the user. -/
def Effect.acts (userId : Option RawId) : Effect → Bool
  | .command c => !c.reads
  | .emitToUser u _ _ => some u ≠ userId
  | .emitToChannel _ _ _ _ => true
  | _ => false

/-- The event changes state, emits to another user or returns success. -/
def Outcome.Serves (o : Outcome) (userId : Option RawId) : Prop :=
  (∃ e ∈ o.effects, e.acts userId = true) ∨ ∃ r ∈ o.ack, r.isSuccess = true

/-- The socket is told `TOKEN_EXPIRED` or `NOT_AUTHENTICATED`, and nothing else happens. -/
def Outcome.Refuses (o : Outcome) (userId : Option RawId) : Prop :=
  ((∃ message, Effect.error "TOKEN_EXPIRED" message ∈ o.effects) ∨
    ∃ r, o.ack = some (.refused r) ∧ r.error = "NOT_AUTHENTICATED") ∧ ¬ o.Serves userId

/-- What is asked of an event: it is served only while its socket's token has not expired, and is
refused otherwise. -/
def Client.Heeds (client : Client) (nowMs : ℕ) (a : Answers) (e : Event) : Prop :=
  let o := client.serve nowMs a e
  let userId := client.data.user.map (·.id)
  (o.Serves userId → isTokenExpired client.data nowMs = false) ∧
    (isTokenExpired client.data nowMs = true → o.Refuses userId)

def Event.ofCalls : Event → Bool
  | .callInvite _ => true
  | .callAccept _ => true
  | .callReject _ => true
  | .callOffer _ => true
  | .callAnswer _ => true
  | .callIceCandidate _ => true
  | .callHangup _ => true
  | .callInitiate _ => true
  | .callLiveKitFallback _ => true
  | .callLiveKitActive _ => true
  | .callLiveKitJoinGroup _ => true
  | _ => false

end ZevraServer.SocketEvents
