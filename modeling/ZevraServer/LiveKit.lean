import ZevraServer.Calls
import ZevraServer.Patterns
import Mathlib.Data.String.Basic

/-!
# LiveKit rooms

The names of the rooms, who may enter one, and the tables `call_logs` and
`call_participants` as the LiveKit side of the calls writes them. Ids in tables are values,
ids in requests, tokens and room names are texts. A text that Postgres cannot store is too
long for its column or holds the character zero.

The world lists the tokens that have been created and the invitations that have been emitted;
nothing reads them. What LiveKit does with a room and a token is left out.
-/

namespace ZevraServer

namespace LiveKit

open Patterns
open Raw.State (getGroupRoomName)
open Calls (SocketUser LogStatus)

/-! ### Room names -/

def hex : Pattern := .char (· ∈ hexDigits)

def dash : Pattern := .char (· == '-')

def UUID_RE : Pattern :=
  .seq (.rep hex 8 0) (.seq dash (.seq (.rep hex 4 0) (.seq dash (.seq (.rep hex 4 0) (.seq dash
    (.seq (.rep hex 4 0) (.seq dash (.rep hex 12 0))))))))

def DM_ROOM_RE : Pattern :=
  (Pattern.seq (.word ['d','m','-']) (.seq (.group UUID_RE) (.seq dash (.group UUID_RE)))).ignoreCase

def GROUP_ROOM_RE : Pattern :=
  (Pattern.seq (.word ['g','r','o','u','p','-']) (.group UUID_RE)).ignoreCase

def dmOrGroup : Pattern := .group (.alt (.word ['d','m']) (.word ['g','r','o','u','p']))

def ROOM_NAME_RE : Pattern :=
  (Pattern.seq dmOrGroup (.seq dash (.rep (.char (· ∈ '-'::hexDigits)) 36 37))).ignoreCase

/-- The pattern of `LivekitTokenDto.roomName`, which has no flag. -/
def DTO_ROOM_RE : Pattern :=
  .seq dmOrGroup (.seq dash (.rep (.char (· ∈ '-'::hexDigits++['A','B','C','D','E','F'])) 36 37))

/-- Both ids in the order `sort` gives them. -/
def getDmRoomName (userId1 userId2 : RawId) : String :=
  if userId1 ≤ userId2 then "dm-"++userId1++"-"++userId2 else "dm-"++userId2++"-"++userId1

structure LivekitTokenDto where
  roomName : String
  participantName : Option String
  deriving DecidableEq, Repr

def LivekitTokenDto.valid (body : LivekitTokenDto) : Bool :=
  DTO_ROOM_RE.test body.roomName.toList && body.participantName.all (·.length ≤ 64)

/-! ### State -/

structure User where
  id : Uuid
  username : String
  deriving DecidableEq, Repr

/-- The columns of `memberships` that `authorizeRoomAccess` reads. -/
structure Membership where
  userId : Uuid
  channelId : Uuid
  leftAt : Option ℕ
  deriving DecidableEq, Repr

/-- A row of `call_logs`. -/
structure CallLog where
  id : Uuid
  type : Raw.CallType
  callerId : Option Uuid
  calleeId : Option Uuid
  roomName : Option String
  startedAt : ℕ
  endedAt : Option ℕ
  duration : Option ℤ
  status : LogStatus
  channelId : Option Uuid
  deriving DecidableEq, Repr

/-- A row of `call_participants`. -/
structure Participant where
  id : Uuid
  callLogId : Uuid
  userId : Uuid
  username : String
  joinedAt : ℕ
  leftAt : Option ℕ
  duration : Option ℤ
  deriving DecidableEq, Repr

/-- What `generateToken` signs. -/
structure Token where
  room : String
  identity : RawId
  name : String
  deriving DecidableEq, Repr

/-- `livekit:incoming`, or `livekit:group-invite`. -/
structure Invitation where
  group : Bool
  target : RawId
  token : Token
  userId : RawId
  username : String
  deriving DecidableEq, Repr

/-- A token with the request that had it created. -/
structure Minted where
  request : ℕ
  token : Token
  deriving DecidableEq, Repr

structure World where
  isConfigured : Bool
  users : List User
  channels : List Uuid
  memberships : List Membership
  callLogs : List CallLog
  participants : List Participant
  minted : List Minted
  emitted : List Invitation

/-- The clock, and the row a `LIMIT 1` returns among equals. -/
structure Setting where
  now : ℕ
  pick : ℕ
  deriving DecidableEq, Repr

/-- The random ids of the rows that are inserted. -/
structure Ids where
  log : Uuid
  participant : Uuid
  deriving DecidableEq, Repr

/-- A text a column of `n` characters can hold. -/
def storable (n : ℕ) (s : String) : Bool := s.length ≤ n && Char.ofNat 0 ∉ s.toList

namespace World

variable (w : World)

def isUser (userId : Uuid) : Bool := w.users.any (·.id = userId)

/-! ### `LivekitService` -/

def isActiveMember (userId channelId : Uuid) : Bool :=
  w.memberships.any fun m => m.userId = userId && m.channelId = channelId && m.leftAt.isNone

/-- `fails` says that the query throws, which is caught. -/
def authorizeRoomAccess (fails : Bool) (roomName : String) (userId : RawId) : Bool :=
  match DM_ROOM_RE.exec roomName.toList with
  | some [a,b] => (String.ofList a).toLower = userId.toLower || (String.ofList b).toLower = userId.toLower
  | _ =>
    match GROUP_ROOM_RE.exec roomName.toList with
    | some [channelId] => !fails && w.isActiveMember (.ofText userId) (.ofText (String.ofList channelId))
    | _ => false

def generateToken (roomName : String) (userId : RawId) (username : String) : Option Token :=
  if w.isConfigured then some ⟨roomName,userId,username⟩ else none

/-! ### `CallsService` -/

/-- The map `getUsernames` returns, whose keys are the texts Postgres writes. -/
def getUsernames (userIds : List RawId) : List User := w.users.filter (·.id ∈ userIds.map Uuid.ofText)

def insertCallLog (l : CallLog) : World := { w with callLogs := w.callLogs++[l] }

/-- `none` where the insert throws: a reference is broken, or the row cannot be stored. -/
def createCallLog (e : Setting) (i : Ids) (type : Raw.CallType) (initiatorId : RawId) (calleeId : Option RawId)
    (roomName : Option String) (channelId : Option RawId) : Option World :=
  if w.isUser (.ofText initiatorId) ∧ (∀ u ∈ calleeId, w.isUser (.ofText u)) ∧
      (∀ c ∈ channelId, Uuid.ofText c ∈ w.channels) ∧ (∀ r ∈ roomName, storable 128 r) ∧
      ∀ l ∈ w.callLogs, l.id ≠ i.log then
    some (w.insertCallLog ⟨i.log,type,some (.ofText initiatorId),calleeId.map .ofText,roomName,e.now,none,none,
      .missed,channelId.map .ofText⟩)
  else none

/-! ### `LivekitWebhookService` -/

/-- The newest logs of the room. -/
def newestLogs (roomName : String) : List CallLog :=
  (w.callLogs.filter (·.roomName = some roomName)).filter fun l =>
    ∀ k ∈ w.callLogs, k.roomName = some roomName → k.startedAt ≤ l.startedAt

def latestLogId (e : Setting) (roomName : String) : Option Uuid :=
  ((w.newestLogs roomName)[e.pick % (w.newestLogs roomName).length]?).map (·.id)

def openLogs (roomName : String) : List CallLog :=
  w.callLogs.filter fun l => l.roomName = some roomName && l.endedAt.isNone

/-- The insert of `handleRoomStarted` or `handleRoomFinished`; a failure is caught. -/
def insertRoomLog (i : Ids) (l : CallLog) : World :=
  if (∀ r ∈ l.roomName, storable 128 r) ∧ ∀ k ∈ w.callLogs, k.id ≠ i.log then w.insertCallLog l else w

/-- The id of the row is not used by the controller. -/
def handleRoomStarted (e : Setting) (i : Ids) (roomName : String) : World :=
  if w.openLogs roomName = [] then
    w.insertRoomLog i ⟨i.log,.livekit,none,none,some roomName,e.now,none,none,.missed,none⟩
  else w

/-- `GREATEST(0, EXTRACT(EPOCH FROM (now() - started_at)))::int`, which rounds. -/
def roomDuration (startedAt now : ℕ) : ℤ := (max 0 ((now : ℤ)-startedAt)+500)/1000

def finish (e : Setting) (l : CallLog) : CallLog :=
  { l with
    endedAt := some e.now
    duration := some (roomDuration l.startedAt e.now)
    status := .completed }

def handleRoomFinished (e : Setting) (i : Ids) (roomName : String) : World :=
  if w.openLogs roomName = [] then
    w.insertRoomLog i ⟨i.log,.livekit,none,none,some roomName,e.now,some e.now,some 0,.completed,none⟩
  else
    { w with
      callLogs := w.callLogs.map fun l =>
        if l.roomName = some roomName ∧ l.endedAt = none then finish e l else l }

/-- `name.slice(0, 32)` counts UTF-16 units; half of a surrogate pair is stored as U+FFFD. -/
def slice : ℕ → List Char → List Char
  | 0, _ => []
  | _, [] => []
  | n+1, c::cs =>
    if c.toNat < 0x10000 then c::slice n cs
    else match n with
      | 0 => [Char.ofNat 0xFFFD]
      | n+1 => c::slice n cs

def updateParticipant (callLogId userId : Uuid) (f : Participant → Participant) : World :=
  { w with
    participants := w.participants.map fun p =>
      if p.callLogId = callLogId ∧ p.userId = userId then f p else p }

def participant? (callLogId userId : Uuid) : Option Participant :=
  w.participants.find? fun p => p.callLogId = callLogId && p.userId = userId

/-- The insert of a participant; a failure is caught. -/
def insertParticipant (p : Participant) : World :=
  if w.isUser p.userId ∧ storable 32 p.username ∧ ∀ q ∈ w.participants, q.id ≠ p.id then
    { w with participants := w.participants++[p] }
  else w

/-- A rejoin after a leave: the duration counts from this join. -/
def rejoin (e : Setting) (p : Participant) : Participant :=
  { p with joinedAt := e.now, leftAt := none, duration := none }

def handleParticipantJoined (e : Setting) (i : Ids) (roomName identity name : String) : World :=
  if !isUuid identity then w
  else match w.latestLogId e roomName with
    | none => w
    | some logId =>
      match w.participant? logId (.ofText identity) with
      | some _ => w.updateParticipant logId (.ofText identity) (rejoin e)
      | none => w.insertParticipant ⟨i.participant,logId,.ofText identity,
          String.ofList (slice 32 name.toList),e.now,none,none⟩

def leave (e : Setting) (joinedAt : ℕ) (p : Participant) : Participant :=
  { p with leftAt := some e.now, duration := some (Calls.callDuration joinedAt e.now) }

def handleParticipantLeft (e : Setting) (roomName identity : String) : World :=
  if !isUuid identity then w
  else match w.latestLogId e roomName with
    | none => w
    | some logId =>
      match w.participant? logId (.ofText identity) with
      | none => w
      | some participant =>
        { w with
          participants := w.participants.map fun p =>
            if p.id = participant.id then leave e participant.joinedAt p else p }

end World

/-! ### `handleWebhook` -/

inductive EventName
  | roomStarted | roomFinished | participantJoined | participantLeft | other
  deriving DecidableEq, Repr

/-- A verified event; a missing field is an empty text, as the controller does not tell them
apart. -/
structure Webhook where
  event : EventName
  roomName : String
  identity : String
  name : String
  deriving DecidableEq, Repr

def World.handleWebhook (w : World) (e : Setting) (i : Ids) (h : Webhook) : World :=
  match h.event with
  | .roomStarted => if h.roomName = "" then w else w.handleRoomStarted e i h.roomName
  | .roomFinished => if h.roomName = "" then w else w.handleRoomFinished e i h.roomName
  | .participantJoined =>
    if h.roomName = "" ∨ h.identity = "" then w
    else w.handleParticipantJoined e i h.roomName h.identity (if h.name = "" then h.identity else h.name)
  | .participantLeft =>
    if h.roomName = "" ∨ h.identity = "" then w else w.handleParticipantLeft e h.roomName h.identity
  | .other => w

end LiveKit

end ZevraServer
