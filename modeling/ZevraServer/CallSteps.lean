import ZevraServer.Calls
import ZevraServer.Pools

/-!
# The handlers of the calls, statement by statement

A handler has a control state before each awaited statement; what it computes between two
statements belongs to the step of the second. A Redis command or a statement of the database
may fail without effect. `CallsService` answers a failed command as the absence of the key,
except where `createCall` writes and where `cleanupUserCall` reads.
-/

namespace ZevraServer

namespace Calls

open Interleaving

/-- What a statement of a helper leads to. -/
inductive Next (Q α : Type)
  | more (q : Q)
  | result (a : α)
  deriving DecidableEq, Repr

structure Choice where
  fails : Bool
  setting : Setting
  deriving DecidableEq, Repr

/-! ### Helpers -/

/-- `getActiveCall`. -/
inductive Lookup
  | key (userId : RawId)
  | room (callId : String)
  deriving DecidableEq, Repr

def Lookup.step (q : Lookup) (ch : Choice) (w : World) : Next Lookup (Option ActiveCall) :=
  match q with
  | .key userId =>
    if ch.fails then .result none
    else match w.userCall userId with
      | none => .result none
      | some callId => .more (.room callId)
  | .room callId =>
    if ch.fails then .result none else .result (toActiveCall callId (w.room callId))

/-- `cleanupCall`. -/
inductive Cleanup
  | read (callId : String)
  | write (callId : String) (data : Option Hash)
  deriving DecidableEq, Repr

def Cleanup.step (q : Cleanup) (ch : Choice) (w : World) : Next Cleanup (Option ActiveCall) × World :=
  match q with
  | .read callId => if ch.fails then (.result none,w) else (.more (.write callId (w.room callId)),w)
  | .write callId data =>
    if ch.fails then (.result none,w) else (.result (toActiveCall callId data),w.cleanup callId data)

/-- `finishConnectedCall` with `endCallLog`, which reads the clock before the names. -/
inductive Finish
  | create (call : ActiveCall)
  | names (call : ActiveCall) (callLogId : String)
  | close (call : ActiveCall) (callLogId : String) (now : ℕ) (found : List User)
  | participants (call : ActiveCall) (callLogId : String) (now : ℕ) (found : List User)
  deriving DecidableEq, Repr

def Finish.start (call : ActiveCall) : Finish :=
  match call.callLogId with
  | some id => .names call id
  | none => .create call

/-- The result is `false` where a statement throws. -/
def Finish.step (q : Finish) (ch : Choice) (w : World) : Next Finish Bool × World :=
  if ch.fails then (.result false,w)
  else match q with
    | .create call =>
      match w.createCallLog ch.setting.logId call.initiatorId call.targetId none with
      | none => (.result false,w)
      | some w => (.more (.names call ch.setting.logId),w)
    | .names call id => (.more (.close call id w.now (w.usernames [call.initiatorId,call.targetId])),w)
    | .close call id now found => (.more (.participants call id now found),w.closeCallLog id call.startedAt now)
    | .participants call id now found =>
      match w.insertParticipants call id now found with
      | none => (.result false,w)
      | some w => (.result true,w)

/-! ### Handlers -/

inductive Dial
  | request (user : SocketUser) (d : Dialling)
  | own (user : SocketUser) (d : Dialling) (s : Lookup)
  | target (user : SocketUser) (d : Dialling) (targetId : RawId) (s : Lookup)
  | online (user : SocketUser) (d : Dialling) (targetId : RawId)
  | log (user : SocketUser) (d : Dialling) (targetId : RawId)
  | create (user : SocketUser) (d : Dialling) (targetId : RawId) (callLogId : String)
  | names (user : SocketUser) (d : Dialling) (targetId : RawId) (callId callLogId : String)
  | done (r : Reply)
  deriving DecidableEq, Repr

def Dial.step (q : Dial) (ch : Choice) (w : World) : Option (Dial × World) :=
  match q with
  | .request user d =>
    match d.invalid? user.id with
    | some r => some (.done r,w)
    | none =>
      if !ch.setting.allowed then some (.done tooMany,w) else some (.own user d (.key user.id),w)
  | .own user d s =>
    match s.step ch w with
    | .more s => some (.own user d s,w)
    | .result (some _) => some (.done alreadyInCall,w)
    | .result none =>
      match d.target? user.id with
      | none => some (.done noTarget,w)
      | some t => some (.target user d t (.key t),w)
  | .target user d t s =>
    match s.step ch w with
    | .more s => some (.target user d t s,w)
    | .result (some _) => some (.done targetBusy,w)
    | .result none => some (.online user d t,w)
  | .online user d t =>
    if ch.fails || !w.online t then some (.done d.offline,w) else some (.log user d t,w)
  | .log user d t =>
    if ch.fails then some (.done .thrown,w)
    else match w.createCallLog ch.setting.logId user.id t d.channelId with
      | none => some (.done .thrown,w)
      | some w => some (.create user d t ch.setting.logId,w)
  | .create user d t id =>
    if ch.fails then some (.done .thrown,w)
    else
      let w := w.createCall ch.setting.callId user.id t id
      match d with
      | .invite _ => some (.done (.call ch.setting.callId id),w.announce user d t ch.setting.callId)
      | .initiate _ _ => some (.names user d t ch.setting.callId id,w)
  | .names user d t callId id =>
    if ch.fails then some (.done .thrown,w)
    else some (.done (.call callId id),w.announce user d t callId)
  | .done _ => none

/-- The first step of the handlers that name a call. -/
def named {Q : Type} (callId : String) (find : Q) (refused : Reply → Q) : Q :=
  if !isUuid callId then refused (invalid "callId must be a valid id") else find

inductive Accept
  | request (user : SocketUser) (callId : String)
  | find (user : SocketUser) (callId : String) (s : Lookup)
  | write (user : SocketUser) (call : ActiveCall)
  | log (user : SocketUser) (call : ActiveCall) (callLogId : String)
  | done (r : Reply)
  deriving DecidableEq, Repr

/-- The event of an accepted call. -/
def World.emitAccepted (w : World) (user : SocketUser) (call : ActiveCall) : World :=
  w.emit user.id call.initiatorId call.callId (.accepted user.id user.username)

def Accept.step (q : Accept) (ch : Choice) (w : World) : Option (Accept × World) :=
  match q with
  | .request user callId => some (named callId (.find user callId (.key user.id)) .done,w)
  | .find user callId s =>
    match s.step ch w with
    | .more s => some (.find user callId s,w)
    | .result r =>
      match (r.filter (·.callId = callId)).filter (·.targetId = user.id) with
      | none => some (.done callNotFound,w)
      | some call => some (.write user call,w)
  | .write user call =>
    let w := if ch.fails then w else w.acceptCall call
    match call.callLogId with
    | none => some (.done .success,w.emitAccepted user call)
    | some id => some (.log user call id,w)
  | .log user call id =>
    if ch.fails then some (.done .thrown,w)
    else some (.done .success,(w.updateCallLogAccepted id).emitAccepted user call)
  | .done _ => none

inductive Reject
  | request (user : SocketUser) (callId : String)
  | find (user : SocketUser) (callId : String) (s : Lookup)
  | create (user : SocketUser) (call : ActiveCall)
  | log (user : SocketUser) (call : ActiveCall) (callLogId : String)
  | cleanup (user : SocketUser) (call : ActiveCall) (s : Cleanup)
  | done (r : Reply)
  deriving DecidableEq, Repr

def Reject.step (q : Reject) (ch : Choice) (w : World) : Option (Reject × World) :=
  match q with
  | .request user callId => some (named callId (.find user callId (.key user.id)) .done,w)
  | .find user callId s =>
    match s.step ch w with
    | .more s => some (.find user callId s,w)
    | .result r =>
      match r.filter (·.callId = callId) with
      | none => some (.done callNotFound,w)
      | some call =>
        match call.callLogId with
        | some id => some (.log user call id,w)
        | none => some (.create user call,w)
  | .create user call =>
    if ch.fails then some (.done .thrown,w)
    else match w.createCallLog ch.setting.logId call.initiatorId call.targetId none with
      | none => some (.done .thrown,w)
      | some w => some (.log user call ch.setting.logId,w)
  | .log user call id =>
    if ch.fails then some (.done .thrown,w)
    else some (.cleanup user call (.read call.callId),w.updateCallLogRejected id)
  | .cleanup user call s =>
    match s.step ch w with
    | (.more s,w) => some (.cleanup user call s,w)
    | (.result _,w) =>
      some (.done .success,w.emit user.id (call.getOtherUserId user.id) call.callId .rejected)
  | .done _ => none

inductive Hangup
  | request (user : SocketUser) (callId : String)
  | find (user : SocketUser) (callId : String) (s : Lookup)
  | finish (user : SocketUser) (call : ActiveCall) (s : Finish)
  | cleanup (user : SocketUser) (call : ActiveCall) (s : Cleanup)
  | done (r : Reply)
  deriving DecidableEq, Repr

def Hangup.step (q : Hangup) (ch : Choice) (w : World) : Option (Hangup × World) :=
  match q with
  | .request user callId => some (named callId (.find user callId (.key user.id)) .done,w)
  | .find user callId s =>
    match s.step ch w with
    | .more s => some (.find user callId s,w)
    | .result r =>
      match r.filter (·.callId = callId) with
      | none => some (.done callNotFound,w)
      | some call =>
        if call.status = .connected then some (.finish user call (.start call),w)
        else some (.cleanup user call (.read call.callId),w)
  | .finish user call s =>
    match s.step ch w with
    | (.more s,w) => some (.finish user call s,w)
    | (.result true,w) => some (.cleanup user call (.read call.callId),w)
    | (.result false,w) => some (.done .thrown,w)
  | .cleanup user call s =>
    match s.step ch w with
    | (.more s,w) => some (.cleanup user call s,w)
    | (.result _,w) =>
      some (.done .success,w.emit user.id (call.getOtherUserId user.id) call.callId (.hangup none))
  | .done _ => none

inductive Disconnect
  | sockets (user : SocketUser)
  | key (user : SocketUser)
  | cleanup (user : SocketUser) (s : Cleanup)
  | finish (user : SocketUser) (call : ActiveCall) (s : Finish)
  | done
  deriving DecidableEq, Repr

def Disconnect.step (q : Disconnect) (ch : Choice) (w : World) : Option (Disconnect × World) :=
  match q with
  | .sockets user => if ch.setting.remaining then some (.done,w) else some (.key user,w)
  | .key user =>
    if ch.fails then some (.done,w)
    else match w.userCall user.id with
      | none => some (.done,w)
      | some callId => some (.cleanup user (.read callId),w)
  | .cleanup user s =>
    match s.step ch w with
    | (.more s,w) => some (.cleanup user s,w)
    | (.result none,w) => some (.done,w)
    | (.result (some call),w) =>
      if call.status = .connected then some (.finish user call (.start call),w)
      else some (.done,w.emit user.id (call.getOtherUserId user.id) call.callId (.hangup (some "caller_disconnected")))
  | .finish user call s =>
    match s.step ch w with
    | (.more s,w) => some (.finish user call s,w)
    | (.result true,w) =>
      some (.done,w.emit user.id (call.getOtherUserId user.id) call.callId (.hangup (some "disconnected")))
    | (.result false,w) => some (.done,w)
  | .done => none

def MAX_SDP_LENGTH : ℕ := 64*1024

def MAX_CANDIDATE_LENGTH : ℕ := 4096

/-- `length` of a string, in UTF-16 units. -/
def unitLength (s : String) : ℕ := (s.toList.map fun c => if c.val < 0x10000 then 1 else 2).sum

def Signal.acceptable (s : Signal) : Bool :=
  match s with
  | .offer sdp => 0 < unitLength sdp && unitLength sdp ≤ MAX_SDP_LENGTH
  | .answer sdp => 0 < unitLength sdp && unitLength sdp ≤ MAX_SDP_LENGTH
  | .iceCandidate candidate => unitLength candidate ≤ MAX_CANDIDATE_LENGTH

/-- `handleOffer`, `handleAnswer` and `handleIceCandidate`. -/
inductive Relay
  | request (user : SocketUser) (callId : String) (signal : Signal)
  | find (user : SocketUser) (callId : String) (signal : Signal) (s : Lookup)
  | done
  deriving DecidableEq, Repr

def Relay.step (q : Relay) (ch : Choice) (w : World) : Option (Relay × World) :=
  match q with
  | .request user callId signal =>
    if !signal.acceptable || !isUuid callId || !ch.setting.allowed then some (.done,w)
    else some (.find user callId signal (.key user.id),w)
  | .find user callId signal s =>
    match s.step ch w with
    | .more s => some (.find user callId signal s,w)
    | .result r =>
      match r.filter (·.callId = callId) with
      | none => some (.done,w)
      | some call =>
        some (.done,w.emit user.id (call.getOtherUserId user.id) call.callId (.signal signal user.id))
  | .done => none

inductive Call
  | dial (q : Dial)
  | accept (q : Accept)
  | reject (q : Reject)
  | hangup (q : Hangup)
  | disconnect (q : Disconnect)
  | relay (q : Relay)
  deriving DecidableEq, Repr

def Call.step (q : Call) (ch : Choice) (w : World) : Option (Call × World) :=
  match q with
  | .dial q => (q.step ch w).map fun r => (.dial r.1,r.2)
  | .accept q => (q.step ch w).map fun r => (.accept r.1,r.2)
  | .reject q => (q.step ch w).map fun r => (.reject r.1,r.2)
  | .hangup q => (q.step ch w).map fun r => (.hangup r.1,r.2)
  | .disconnect q => (q.step ch w).map fun r => (.disconnect r.1,r.2)
  | .relay q => (q.step ch w).map fun r => (.relay r.1,r.2)

/-- Keys expire, the keys of one call together or one by one; users come and go; time passes. -/
inductive Env
  | expireCall (callId : String)
  | expireRoom (callId : String)
  | expireUser (userId : RawId)
  | presence (userId : RawId) (online : Bool)
  | tick (ms : ℕ)
  deriving DecidableEq, Repr

namespace World

def expireCall (w : World) (callId : String) : World :=
  { w.delRoom callId with userCall := fun u => (w.userCall u).filter (· ≠ callId) }

def setPresence (w : World) (userId : RawId) (online : Bool) : World :=
  { w with online := Function.update w.online userId online }

def tick (w : World) (ms : ℕ) : World := { w with now := w.now+ms }

end World

def Env.apply (e : Env) (w : World) : Option World :=
  match e with
  | .expireCall callId => some (w.expireCall callId)
  | .expireRoom callId => some (w.delRoom callId)
  | .expireUser userId => some { w with userCall := Function.update w.userCall userId none }
  | .presence userId online => some (w.setPresence userId online)
  | .tick ms => some (w.tick ms)

def system : System World Call Choice Env := ⟨fun _ => Call.step,Env.apply⟩

/-- Control states in which an event arrives. -/
inductive Call.Initial : Call → Prop
  | dial (user d) : Initial (.dial (.request user d))
  | accept (user callId) : Initial (.accept (.request user callId))
  | reject (user callId) : Initial (.reject (.request user callId))
  | hangup (user callId) : Initial (.hangup (.request user callId))
  | disconnect (user) : Initial (.disconnect (.sockets user))
  | relay (user callId signal) : Initial (.relay (.request user callId signal))

end Calls

end ZevraServer
