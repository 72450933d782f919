import ZevraServer.Members

/-!
# `SocketGateway`: connecting, `join-channel` and `leave-channel`

`handleConnection` starts here when the token is verified: it reads the user's
channels, joins the rooms, registers the socket and announces `connected`. The
presence keys and the socket registry it writes in between are not read by any
modelled call.
-/

namespace ZevraServer

open ReadCommitted

/-- `handleConnection`. -/
inductive Connection
  | channels (socket : ℕ) (userId : Uuid)
  | join (socket : ℕ) (userId : Uuid) (channelIds : List Uuid)
  | register (socket : ℕ) (userId : Uuid)
  | announce (socket : ℕ) (userId : Uuid)
  | done (socket : ℕ) (userId : Uuid)
  | rejected
  deriving DecidableEq, Repr

namespace Connection

def step (ch : Choice) (w : World) : Connection → Option (Connection × World)
  | .channels s u =>
    if ch.fail then some (.rejected,w.disconnect s)
    else some (.join s u (w.pg.db.channelIdsOf u),w)
  | .join s u ids =>
    if ch.fail then some (.rejected,w.disconnect s)
    else some (.register s u,w.onSocket s u (·.join (.user u::ids.map .channel)))
  | .register s u => some (.announce s u,w)
  | .announce s u =>
    let w := w.onSocket s u fun s => { s with announced := true }
    some (.done s u,
      { w with
        inbox := w.inbox++((w.sockets.filter fun k => k.id = s ∧ k.user = u).map
          fun k => (k.id,k.user,.connected u s)) })
  | .done _ _ => none
  | .rejected => none

end Connection

/-- `handleJoinChannel` and `handleLeaveChannel`, which differ in their last command. -/
inductive RoomCall
  | member (socket : ℕ) (userId channelId : Uuid) (joins : Bool) (call : IsMember)
  | move (socket : ℕ) (userId channelId : Uuid) (joins : Bool)
  | done (socket : ℕ) (userId channelId : Uuid) (joins : Bool)
  | failed (code : String)
  deriving DecidableEq, Repr

namespace RoomCall

def joinChannel (socket : ℕ) (u c : Uuid) : RoomCall := .member socket u c true (.multi c u)

def leaveChannel (socket : ℕ) (u c : Uuid) : RoomCall := .member socket u c false (.multi c u)

/-- Return from `requireMember`. -/
def resume (s : ℕ) (u c : Uuid) (joins : Bool) : IsMember → RoomCall
  | .done true => .move s u c joins
  | .done false => .failed "NOT_MEMBER"
  | .failed _ => .failed "INTERNAL_ERROR"
  | call => .member s u c joins call

def step (ch : Choice) (w : World) : RoomCall → Option (RoomCall × World)
  | .member s u c joins call => (call.step ch w).map fun r => (resume s u c joins r.1,r.2)
  | .move s u c joins =>
    some (.done s u c joins,
      w.onSocket s u fun k => if joins then k.join [.channel c] else k.leave c)
  | .done _ _ _ _ => none
  | .failed _ => none

end RoomCall

end ZevraServer
