import ZevraServer.Interleaving
import ZevraServer.World

/-!
# Presence and the socket registry

`handleConnection`, `handleDisconnect` and `beat` of `SocketGateway`, as far as they
touch the registry `zevra:sockets:{userId}` and the presence key of a user. A step
is the synchronous code up to the next `await`, with the Redis command it issues:
the handlers of a socket run on one node, whose commands reach Redis in the order
they are issued. Redis answers, and no key or entry outlives its lifetime.
-/

namespace ZevraServer.Presence

open Interleaving

/-- Whether a socket is connected, has disconnected with `handleDisconnect` still to run, or
has been handled. -/
inductive Status
  | connected | leaving | left
  deriving DecidableEq, Repr

/-- A socket; `user` is `client.data.user`. -/
structure Client where
  status : Status
  user : Option Uuid
  deriving DecidableEq, Repr

/-- Sockets are numbered in the order they connect. `registry` holds the sorted sets of socket
ids, `online` says which presence keys hold `online`. -/
structure World where
  clients : List Client
  registry : Uuid → List ℕ
  online : Uuid → Bool

namespace World

variable (w : World)

def onClient (s : ℕ) (f : Client → Client) : World := { w with clients := w.clients.modify s f }

/-- `client.disconnect(true)`, or the connection is lost. -/
def disconnect (s : ℕ) : World :=
  w.onClient s fun k => if k.status = .connected then { k with status := .leaving } else k

def isConnected (s : ℕ) : Bool := w.clients[s]?.any fun k => k.status = .connected

/-- `addSocket` and `refreshSocket`: `ZADD` of the socket. -/
def addSocket (u : Uuid) (s : ℕ) : World :=
  { w with
    registry := Function.update w.registry u
      (if s ∈ w.registry u then w.registry u else w.registry u++[s]) }

/-- `ZREM`. -/
def removeSocket (u : Uuid) (s : ℕ) : World :=
  { w with registry := Function.update w.registry u ((w.registry u).filter (· ≠ s)) }

def setOnline (u : Uuid) : World := { w with online := Function.update w.online u true }

def setOffline (u : Uuid) : World := { w with online := Function.update w.online u false }

end World

/-- What a handler meets: the user its token names, whether a query or a join fails, and
whether the token has expired. -/
structure Choice where
  user : Option Uuid
  fails : Bool
  expired : Bool
  deriving DecidableEq, Repr

/-! ### `handleConnection` -/

inductive Connection
  | accept
  | verify (s : ℕ)
  | join (s : ℕ) (u : Uuid)
  | online (s : ℕ) (u : Uuid)
  | check (s : ℕ) (u : Uuid)
  | done
  deriving DecidableEq, Repr

def Connection.step (ch : Choice) (w : World) : Connection → Option (Connection × World)
  | .accept => some (.verify w.clients.length,{ w with clients := w.clients++[⟨.connected,none⟩] })
  | .verify s =>
    match ch.user with
    | none => some (.done,w.disconnect s)
    | some u => some (.join s u,w.onClient s fun k => { k with user := some u })
  | .join s u =>
    if ch.fails then some (.done,w.disconnect s)
    else if w.isConnected s then some (.online s u,w.addSocket u s)
    else some (.done,w)
  | .online s u => some (.check s u,w.setOnline u)
  | .check s u => some (.done,if w.isConnected s then w else w.removeSocket u s)
  | .done => none

/-! ### `handleDisconnect` -/

inductive Disconnect
  | start (s : ℕ)
  | offline (u : Uuid)
  | done
  deriving DecidableEq, Repr

def Disconnect.step (w : World) : Disconnect → Option (Disconnect × World)
  | .start s =>
    match w.clients[s]? with
    | none => none
    | some k =>
      if k.status ≠ .leaving then none
      else
        let w := w.onClient s fun k => { k with status := .left }
        match k.user with
        | none => some (.done,w)
        | some u =>
          let w := w.removeSocket u s
          some (if (w.registry u).length = 0 then .offline u else .done,w)
  | .offline u => some (.done,w.setOffline u)
  | .done => none

/-! ### `beat` -/

/-- A tick of the timer or a `heartbeat` of the client; neither reaches a socket that has
disconnected. -/
inductive Beat
  | start (s : ℕ)
  | online (u : Uuid)
  | done
  deriving DecidableEq, Repr

def Beat.step (ch : Choice) (w : World) : Beat → Option (Beat × World)
  | .start s =>
    match w.clients[s]? with
    | none => none
    | some k =>
      if k.status ≠ .connected then some (.done,w)
      else match k.user with
        | none => some (.done,w)
        | some u => if ch.expired then some (.done,w.disconnect s) else some (.online u,w.addSocket u s)
  | .online u => some (.done,w.setOnline u)
  | .done => none

/-! ### The system -/

inductive Call
  | connection (q : Connection)
  | disconnect (q : Disconnect)
  | beat (q : Beat)
  deriving DecidableEq, Repr

def Call.step (ch : Choice) (w : World) : Call → Option (Call × World)
  | .connection q => (q.step ch w).map fun r => (.connection r.1,r.2)
  | .disconnect q => (q.step w).map fun r => (.disconnect r.1,r.2)
  | .beat q => (q.step ch w).map fun r => (.beat r.1,r.2)

/-- The connection of a socket is lost. -/
structure Lost where
  socket : ℕ
  deriving DecidableEq, Repr

def system : System World Call Choice Lost where
  step _ q ch w := q.step ch w
  env e w := some (w.disconnect e.socket)

inductive Call.Starts : Call → Prop
  | connection : Starts (.connection .accept)
  | disconnect (s : ℕ) : Starts (.disconnect (.start s))
  | beat (s : ℕ) : Starts (.beat (.start s))

def Call.finished : Call → Bool
  | .connection .done => true
  | .disconnect .done => true
  | .beat .done => true
  | _ => false

/-- No handler is in progress, and no disconnect waits for its handler. -/
def Quiet (c : Config World Call) : Prop :=
  (∀ q ∈ c.pool, q.finished = true) ∧ ∀ k ∈ c.world.clients, k.status ≠ .leaving

/-- A connected socket of the user. -/
def World.Connected (w : World) (s : ℕ) (u : Uuid) : Prop := w.clients[s]? = some ⟨.connected,some u⟩

/-- The presence key agrees with the connected sockets, and so does the registry. -/
def World.Agrees (w : World) (u : Uuid) : Prop :=
  (w.online u = true ↔ ∃ s, w.Connected s u) ∧ ∀ s, s ∈ w.registry u ↔ w.Connected s u

/-! ### When a write of the presence key is in turn -/

/-- The handler is about to set the user online. -/
def Call.setsOnline (u : Uuid) : Call → Bool
  | .connection (.online _ v) => v = u
  | .beat (.online v) => v = u
  | _ => false

/-- The handler is about to set the user offline. -/
def Call.setsOffline (u : Uuid) : Call → Bool
  | .disconnect (.offline v) => v = u
  | _ => false

/-- A socket of the user has disconnected and is still to be removed. -/
def World.Leaving (w : World) (u : Uuid) : Prop := ∃ k ∈ w.clients, k = ⟨.leaving,some u⟩

instance (w : World) (u : Uuid) : Decidable (w.Leaving u) := by
  unfold World.Leaving
  infer_instance

/-- A user is set online while a socket is registered or a disconnect is still to be settled,
and offline while none is registered or a handler is about to set the user online. -/
def Call.InTurn (c : Config World Call) : Call → Prop
  | .connection (.online _ u) =>
    c.world.registry u ≠ [] ∨ c.world.Leaving u ∨ ∃ s ∈ c.pool, s.setsOffline u = true
  | .beat (.online u) =>
    c.world.registry u ≠ [] ∨ c.world.Leaving u ∨ ∃ s ∈ c.pool, s.setsOffline u = true
  | .disconnect (.offline u) => c.world.registry u = [] ∨ ∃ s ∈ c.pool, s.setsOnline u = true
  | _ => True

def Orderly (c : Config World Call) : Label Call Choice Lost → Prop
  | .spawn q => q.Starts
  | .run p _ => ∀ q, c.pool[p]? = some q → q.InTurn c
  | .env _ => True

end ZevraServer.Presence
