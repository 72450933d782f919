import ZevraServer.RawIds

/-!
# Calls between two users

The keys of `CallsService` in Redis, the tables `call_logs` and `call_participants`, and the
handlers of the 1:1 calls as each runs from its first statement to its last. User ids are the
texts Postgres writes, and a presence key holds such a text. Every log written here has the
type `WEBRTC` and no room name. Group calls and LiveKit are left out, and so are expiry times:
a key may expire at any moment.

The world lists the call ids that have been drawn and the events that have been emitted; the
handlers read neither.
-/

namespace ZevraServer

namespace Calls

/-! ### State -/

inductive CallStatus
  | ringing | connected
  deriving DecidableEq, Repr

/-- The fields that only `createCall` writes; an empty `callLogId` stands for none. -/
structure Parties where
  initiatorId : RawId
  targetId : RawId
  callLogId : String
  deriving DecidableEq, Repr

/-- The hash under `zevra:call:room:{callId}`. Where `acceptCall` finds no hash, it writes one
without parties. -/
structure Hash where
  parties : Option Parties
  status : CallStatus
  startedAt : ℕ
  deriving DecidableEq, Repr

structure ActiveCall where
  callId : String
  initiatorId : RawId
  targetId : RawId
  status : CallStatus
  startedAt : ℕ
  callLogId : Option String
  deriving DecidableEq, Repr

def toActiveCall (callId : String) (data : Option Hash) : Option ActiveCall :=
  match data with
  | none => none
  | some data =>
    match data.parties with
    | none => none
    | some p =>
      if p.initiatorId = "" then none
      else some ⟨callId,p.initiatorId,p.targetId,data.status,data.startedAt,
        if p.callLogId = "" then none else some p.callLogId⟩

def ActiveCall.getOtherUserId (call : ActiveCall) (userId : RawId) : RawId :=
  if call.initiatorId = userId then call.targetId else call.initiatorId

/-- The columns of `users` that are read here. -/
structure User where
  id : RawId
  username : String
  deriving DecidableEq, Repr

inductive LogStatus
  | missed | completed | rejected
  deriving DecidableEq, Repr

/-- A row of `call_logs`. -/
structure CallLog where
  id : String
  callerId : RawId
  calleeId : RawId
  channelId : Option String
  status : LogStatus
  endedAt : Option ℕ
  duration : Option ℤ
  deriving DecidableEq, Repr

/-- A row of `call_participants`. -/
structure Participant where
  callLogId : String
  userId : RawId
  username : String
  joinedAt : ℕ
  leftAt : ℕ
  duration : ℤ
  deriving DecidableEq, Repr

/-- `call:offer`, `call:answer` and `call:ice-candidate`; a candidate is its JSON text. -/
inductive Signal
  | offer (sdp : String)
  | answer (sdp : String)
  | iceCandidate (candidate : String)
  deriving DecidableEq, Repr

inductive Event
  | incoming (callerId : RawId) (callerUsername : String)
  | methodSelected (targetUserId : RawId) (targetUsername : String)
  | accepted (calleeId : RawId) (calleeUsername : String)
  | rejected
  | hangup (reason : Option String)
  | signal (s : Signal) (senderId : RawId)
  deriving DecidableEq, Repr

/-- An `emitToUser` made for an event of the user `cause`. -/
structure Emission where
  cause : RawId
  target : RawId
  callId : String
  event : Event
  deriving DecidableEq, Repr

/-- `room` and `userCall` are `zevra:call:room:{callId}` and `zevra:call:user:{userId}`,
`online` says which presence keys are set, `now` is the clock. -/
structure World where
  users : List User
  channels : List String
  callLogs : List CallLog
  participants : List Participant
  room : String → Option Hash
  userCall : RawId → Option String
  online : RawId → Bool
  now : ℕ
  drawn : List String
  emitted : List Emission

/-- What a handler finds around it: whether the rate limiter lets it pass, whether another
socket of the user remains, and the ids drawn for a call and for its log. -/
structure Setting where
  allowed : Bool
  remaining : Bool
  callId : String
  logId : String
  deriving DecidableEq, Repr

/-- `client.data.user`. -/
structure SocketUser where
  id : RawId
  username : String
  deriving DecidableEq, Repr

structure Refusal where
  error : String
  message : String
  fallback : Option String
  deriving DecidableEq, Repr

/-- The acknowledgement of an event; `thrown` stands for the error of a failed statement. -/
inductive Reply
  | call (callId callLogId : String)
  | success
  | refused (r : Refusal)
  | thrown
  | silent
  deriving DecidableEq, Repr

def refuse (error message : String) : Reply := .refused ⟨error,message,none⟩

def invalid (message : String) : Reply := refuse "VALIDATION_ERROR" message

def callNotFound : Reply := refuse "INVALID_CALL" "Call not found"

/-! ### Statements -/

/-- `Math.max(0, Math.floor((now - startedAt) / 1000))`. -/
def callDuration (startedAt now : ℕ) : ℤ := max 0 (((now : ℤ)-startedAt)/1000)

namespace World

variable (w : World)

def isUser (userId : RawId) : Bool := w.users.any (·.id = userId)

/-- The names `getUsernames` finds. -/
def usernames (userIds : List RawId) : List User := w.users.filter (·.id ∈ userIds)

/-- The `MULTI` of `createCall`. -/
def createCall (callId : String) (initiatorId targetId : RawId) (callLogId : String) : World :=
  { w with
    room := Function.update w.room callId (some ⟨some ⟨initiatorId,targetId,callLogId⟩,.ringing,w.now⟩)
    userCall := Function.update (Function.update w.userCall initiatorId (some callId)) targetId (some callId)
    drawn := w.drawn++[callId] }

/-- The `MULTI` of `acceptCall`. -/
def acceptCall (call : ActiveCall) : World :=
  { w with
    room := Function.update w.room call.callId
      (some ⟨(w.room call.callId).bind (·.parties),.connected,w.now⟩) }

/-- `pipeline.del(userCallKey(userId))` under its check. -/
def delUserCall (userId : RawId) : World :=
  if userId = "" then w else { w with userCall := Function.update w.userCall userId none }

def delRoom (callId : String) : World := { w with room := Function.update w.room callId none }

/-- The `MULTI` of `cleanupCall` for the hash it read. -/
def cleanup (callId : String) (data : Option Hash) : World :=
  match data.bind (·.parties) with
  | none => w.delRoom callId
  | some p => ((w.delRoom callId).delUserCall p.initiatorId).delUserCall p.targetId

def emit (cause target : RawId) (callId : String) (event : Event) : World :=
  { w with emitted := w.emitted++[⟨cause,target,callId,event⟩] }

/-- The insert of `createCallLog`; the users and the channel are referenced. -/
def createCallLog (id : String) (initiatorId calleeId : RawId) (channelId : Option String) :
    Option World :=
  if w.isUser initiatorId ∧ w.isUser calleeId ∧ (∀ c ∈ channelId, c ∈ w.channels) ∧
      ∀ l ∈ w.callLogs, l.id ≠ id then
    some { w with callLogs := w.callLogs++[⟨id,initiatorId,calleeId,channelId,.missed,none,none⟩] }
  else none

def updateCallLog (id : String) (f : CallLog → CallLog) : World :=
  { w with callLogs := w.callLogs.map fun l => if l.id = id then f l else l }

def updateCallLogAccepted (id : String) : World := w.updateCallLog id fun l => { l with status := .completed }

def updateCallLogRejected (id : String) : World := w.updateCallLog id fun l => { l with status := .rejected }

/-- The update of `endCallLog`. -/
def closeCallLog (id : String) (startedAt now : ℕ) : World :=
  w.updateCallLog id fun l =>
    { l with endedAt := some now, duration := some (callDuration startedAt now), status := .completed }

/-- One row of the insert of `endCallLog`: `ON CONFLICT DO NOTHING` on the log and the user. -/
def insertParticipant (p : Participant) : World :=
  if ∃ q ∈ w.participants, q.callLogId = p.callLogId ∧ q.userId = p.userId then w
  else { w with participants := w.participants++[p] }

def participantRow (call : ActiveCall) (callLogId : String) (now : ℕ) (names : List User)
    (userId : RawId) : Participant :=
  ⟨callLogId,userId,((names.find? (·.id = userId)).map (·.username)).getD "",call.startedAt,now,
    callDuration call.startedAt now⟩

/-- The insert of `endCallLog`; the log and the users are referenced. -/
def insertParticipants (call : ActiveCall) (callLogId : String) (now : ℕ) (names : List User) :
    Option World :=
  if w.isUser call.initiatorId ∧ w.isUser call.targetId ∧ (∃ l ∈ w.callLogs, l.id = callLogId) then
    some ((w.insertParticipant (participantRow call callLogId now names call.initiatorId)).insertParticipant
      (participantRow call callLogId now names call.targetId))
  else none

/-! ### `CallsService` -/

def getActiveCall (userId : RawId) : Option ActiveCall :=
  (w.userCall userId).bind fun callId => toActiveCall callId (w.room callId)

def cleanupCall (callId : String) : World := w.cleanup callId (w.room callId)

/-- `none` where the insert throws. -/
def endCallLog (call : ActiveCall) (callLogId : String) : World × Bool :=
  let names := w.usernames [call.initiatorId,call.targetId]
  let w := w.closeCallLog callLogId call.startedAt w.now
  match w.insertParticipants call callLogId w.now names with
  | none => (w,false)
  | some w => (w,true)

/-- The log of a call, created now if the call has none. -/
def callLogOf (e : Setting) (call : ActiveCall) : Option (World × String) :=
  match call.callLogId with
  | some id => some (w,id)
  | none => (w.createCallLog e.logId call.initiatorId call.targetId none).map fun w => (w,e.logId)

/-- The second component says that nothing was thrown. -/
def finishConnectedCall (e : Setting) (call : ActiveCall) : World × Bool :=
  match w.callLogOf e call with
  | none => (w,false)
  | some (w,id) => w.endCallLog call id

end World

/-! ### `CallsGateway` -/

/-- The two events that ring a user. -/
inductive Dialling
  | invite (targetUserId : RawId)
  | initiate (targetUserIds : List RawId) (channelId : Option RawId)
  deriving DecidableEq, Repr

namespace Dialling

/-- The checks before the rate limit. -/
def invalid? (d : Dialling) (userId : RawId) : Option Reply :=
  match d with
  | .invite t =>
    if !isUuid t || t = userId then some (invalid "targetUserId must be a valid user id") else none
  | .initiate ts c =>
    if Raw.State.MAX_GROUP_TARGETS < ts.length ∨ ¬(ts.all isUuid) then
      some (invalid "targetUserIds must be a list of user ids")
    else if !(c.all isUuid) then some (invalid "channelId must be a valid id")
    else none

/-- The user to ring; `initiate` looks for one only now. -/
def target? (d : Dialling) (userId : RawId) : Option RawId :=
  match d with
  | .invite t => some t
  | .initiate ts _ => ts.head?.filter fun t => t ≠ "" && t ≠ userId

def channelId (d : Dialling) : Option RawId :=
  match d with
  | .invite _ => none
  | .initiate _ c => c

def offline (d : Dialling) : Reply :=
  .refused ⟨"TARGET_OFFLINE","User is offline",match d with
    | .invite _ => none
    | .initiate _ _ => some "LIVEKIT"⟩

end Dialling

def tooMany : Reply := refuse "RATE_LIMITED" "Too many call attempts"

def alreadyInCall : Reply := refuse "ALREADY_IN_CALL" "You are already in a call"

def noTarget : Reply := refuse "NO_TARGET" "A target user is required"

def targetBusy : Reply := refuse "TARGET_BUSY" "User is busy"

namespace World

variable (e : Setting) (w : World)

/-- What is emitted once the call exists. -/
def announce (user : SocketUser) (d : Dialling) (targetId : RawId) (callId : String) : World :=
  match d with
  | .invite _ => w.emit user.id targetId callId (.incoming user.id user.username)
  | .initiate _ _ =>
    let name := (((w.usernames [targetId]).find? (·.id = targetId)).map (·.username)).getD "Unknown"
    (w.emit user.id user.id callId (.methodSelected targetId name)).emit user.id targetId callId
      (.incoming user.id user.username)

/-- The part after the caller is found free. -/
def ring (user : SocketUser) (d : Dialling) : World × Reply :=
  match d.target? user.id with
  | none => (w,noTarget)
  | some t =>
    if (w.getActiveCall t).isSome then (w,targetBusy)
    else if !w.online t then (w,d.offline)
    else match w.createCallLog e.logId user.id t d.channelId with
      | none => (w,.thrown)
      | some w => ((w.createCall e.callId user.id t e.logId).announce user d t e.callId,.call e.callId e.logId)

def dial (user : SocketUser) (d : Dialling) : World × Reply :=
  match d.invalid? user.id with
  | some r => (w,r)
  | none =>
    if !e.allowed then (w,tooMany)
    else if (w.getActiveCall user.id).isSome then (w,alreadyInCall)
    else w.ring e user d

def handleInvite (user : SocketUser) (targetUserId : RawId) : World × Reply :=
  w.dial e user (.invite targetUserId)

/-- `call:initiate` of the type `DM`. -/
def handleInitiate (user : SocketUser) (targetUserIds : List RawId) (channelId : Option RawId) :
    World × Reply :=
  w.dial e user (.initiate targetUserIds channelId)

/-- The call an event names, if it is the call its user is in. -/
def findCall (user : SocketUser) (callId : String) : Option ActiveCall :=
  (w.getActiveCall user.id).filter (·.callId = callId)

def acceptLog (call : ActiveCall) : World :=
  match call.callLogId with
  | none => w
  | some id => w.updateCallLogAccepted id

def handleAccept (user : SocketUser) (callId : String) : World × Reply :=
  if !isUuid callId then (w,invalid "callId must be a valid id")
  else match (w.findCall user callId).filter (·.targetId = user.id) with
    | none => (w,callNotFound)
    | some call =>
      (((w.acceptCall call).acceptLog call).emit user.id call.initiatorId call.callId
        (.accepted user.id user.username),.success)

def handleReject (user : SocketUser) (callId : String) : World × Reply :=
  if !isUuid callId then (w,invalid "callId must be a valid id")
  else match w.findCall user callId with
    | none => (w,callNotFound)
    | some call =>
      match w.callLogOf e call with
      | none => (w,.thrown)
      | some (w,id) =>
        (((w.updateCallLogRejected id).cleanupCall call.callId).emit user.id (call.getOtherUserId user.id)
          call.callId .rejected,.success)

def handleHangup (user : SocketUser) (callId : String) : World × Reply :=
  if !isUuid callId then (w,invalid "callId must be a valid id")
  else match w.findCall user callId with
    | none => (w,callNotFound)
    | some call =>
      let r := if call.status = .connected then w.finishConnectedCall e call else (w,true)
      if r.2 then
        ((r.1.cleanupCall call.callId).emit user.id (call.getOtherUserId user.id) call.callId
          (.hangup none),.success)
      else (r.1,.thrown)

/-- `handleDisconnect`; an error is logged. -/
def handleDisconnect (user : SocketUser) : World × Reply :=
  if e.remaining then (w,.silent)
  else match w.userCall user.id with
    | none => (w,.silent)
    | some callId =>
      let v := w.cleanupCall callId
      match toActiveCall callId (w.room callId) with
      | none => (v,.silent)
      | some call =>
        if call.status = .connected then
          let r := v.finishConnectedCall e call
          if r.2 then
            (r.1.emit user.id (call.getOtherUserId user.id) call.callId (.hangup (some "disconnected")),.silent)
          else (r.1,.silent)
        else
          (v.emit user.id (call.getOtherUserId user.id) call.callId (.hangup (some "caller_disconnected")),.silent)

end World

end Calls

end ZevraServer
