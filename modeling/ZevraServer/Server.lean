import ZevraServer.Interleaving
import ZevraServer.Channels
import ZevraServer.History
import ZevraServer.Gateway

/-!
# The server

The calls of the repository as one interleaved system over the shared world. A
call starts in a control state of `Call.Initial`; the environment connects and
drops sockets and lets Redis keys expire.
-/

namespace ZevraServer

open Interleaving

inductive Call
  | send (q : Send)
  | deleteMessage (q : DeleteMessage)
  | worker (q : Worker)
  | getPending (q : GetPending)
  | getMessages (q : GetMessages)
  | getInbox (q : GetInbox)
  | getMembers (q : GetMembers)
  | isMember (q : IsMember)
  | create (q : Create)
  | addMember (q : AddMember)
  | removeMember (q : RemoveMember)
  | connection (q : Connection)
  | room (q : RoomCall)
  deriving DecidableEq, Repr

namespace Call

/-- Control states in which a request arrives. -/
inductive Initial : Call → Prop
  | send (input except?) : Initial (.send (.check input except?))
  | deleteMessage (u m) : Initial (.deleteMessage (.select u m))
  | worker : Initial (.worker .take)
  | getPending (u) : Initial (.getPending (.range u))
  | getMessages (a) : Initial (.getMessages (.member a))
  | getInbox (u) : Initial (.getInbox (.memberships u))
  | getMembers (c) : Initial (.getMembers (.cached c))
  | isMember (c u) : Initial (.isMember (.multi c u))
  | create (input) : Initial (.create (.find input))
  | addMember (a) : Initial (.addMember (.role a))
  | removeMember (a) : Initial (.removeMember (.role a))
  | connection (s u) : Initial (.connection (.channels s u))
  | joinChannel (s u c) : Initial (.room (.joinChannel s u c))
  | leaveChannel (s u c) : Initial (.room (.leaveChannel s u c))

def isInitial : Call → Bool
  | .send (.check _ _) => true
  | .deleteMessage (.select _ _) => true
  | .worker .take => true
  | .getPending (.range _) => true
  | .getMessages (.member _) => true
  | .getInbox (.memberships _) => true
  | .getMembers (.cached _) => true
  | .isMember (.multi _ _) => true
  | .create (.find _) => true
  | .addMember (.role _) => true
  | .removeMember (.role _) => true
  | .connection (.channels _ _) => true
  | .room (.member _ u c _ (.multi c' u')) => c' = c ∧ u' = u
  | _ => false

theorem initial_of_isInitial {q : Call} (h : q.isInitial = true) : q.Initial := by
  unfold isInitial at h
  split at h
  case h_13 s u c joins c' u' =>
    obtain ⟨rfl,rfl⟩ := of_decide_eq_true h
    cases joins with
    | false => exact .leaveChannel s _ _
    | true => exact .joinChannel s _ _
  all_goals first | constructor | contradiction

def step (x : Externals) (p : ℕ) (q : Call) (ch : Choice) (w : World) : Option (Call × World) :=
  match q with
  | .send q => (q.step x p ch w).map fun r => (.send r.1,r.2)
  | .deleteMessage q => (q.step p ch w).map fun r => (.deleteMessage r.1,r.2)
  | .worker q => (q.step ch w).map fun r => (.worker r.1,r.2)
  | .getPending q => (q.step ch w).map fun r => (.getPending r.1,r.2)
  | .getMessages q => (q.step ch w).map fun r => (.getMessages r.1,r.2)
  | .getInbox q => (q.step ch w).map fun r => (.getInbox r.1,r.2)
  | .getMembers q => (q.step ch w).map fun r => (.getMembers r.1,r.2)
  | .isMember q => (q.step ch w).map fun r => (.isMember r.1,r.2)
  | .create q => (q.step x p ch w).map fun r => (.create r.1,r.2)
  | .addMember q => (q.step p ch w).map fun r => (.addMember r.1,r.2)
  | .removeMember q => (q.step p ch w).map fun r => (.removeMember r.1,r.2)
  | .connection q => (q.step ch w).map fun r => (.connection r.1,r.2)
  | .room q => (q.step ch w).map fun r => (.room r.1,r.2)

/-- A step of a call is a step of its machine. -/
theorem of_step {α : Type} {f : α → Call} {r : Option (α × World)} {q : Call} {w : World}
    (h : r.map (fun r => (f r.1,r.2)) = some (q,w)) : ∃ s, r = some (s,w) ∧ q = f s := by
  obtain ⟨⟨s,v⟩,hr,he⟩ := Option.map_eq_some_iff.mp h
  obtain ⟨rfl,rfl⟩ := Prod.mk.inj he
  exact ⟨s,hr,rfl⟩

end Call

inductive Event
  | connect (userId : Uuid)
  | disconnect (socket : ℕ)
  | expireMembers (channelId : Uuid)
  | expireMessages (channelId : Uuid)
  deriving DecidableEq, Repr

def Event.apply : Event → World → World
  | .connect u, w => w.connect u
  | .disconnect s, w => w.disconnect s
  | .expireMembers c, w => { w with redis := w.redis.invalidate c }
  | .expireMessages c, w => { w with redis := w.redis.invalidateMessages c }

def server (x : Externals) : System World Call Choice Event where
  step p q ch w := q.step x p ch w
  env e w := some (e.apply w)

abbrev Server := Config World Call

abbrev Action := Label Call Choice Event

/-- Requests arrive in their initial state; everything else is up to the scheduler. -/
def Arrives (_ : Server) : Action → Prop
  | .spawn q => q.Initial
  | _ => True

def arrives (_ : Server) : Action → Bool
  | .spawn q => q.isInitial
  | _ => true

theorem arrives_sound (c : Server) (l : Action) (h : arrives c l = true) : Arrives c l := by
  cases l with
  | spawn q => exact Call.initial_of_isInitial h
  | run p ch => trivial
  | env e => trivial

/-- No `create`, `addMember` or `removeMember` is in progress. -/
def MembershipQuiet (d : Server) : Prop :=
  ∀ q ∈ d.pool, match q with
    | .create q => (∃ a c b, q = .done a c b) ∨ ∃ err, q = .failed err
    | .addMember q => (∃ a, q = .done a) ∨ ∃ err, q = .failed err
    | .removeMember q => (∃ a o, q = .done a o) ∨ ∃ err, q = .failed err
    | _ => True

end ZevraServer
