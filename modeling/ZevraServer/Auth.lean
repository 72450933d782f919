import ZevraServer.Interleaving
import ZevraServer.Srp

/-!
# `AuthService`

Accounts, refresh tokens and the SRP state in Redis. A call has a control state before
each awaited statement; what the service computes between two statements belongs to the
step of the second. User ids are the texts Postgres writes. Every statement may fail
without effect. The audit log, the presence of a user, the `status` and `lastLoginAt`
columns, the sealed keys and the access tokens are left out: nothing here reads them.

An SRP entry carries the process number of the `loginStart` that stored it, and the
world lists the refresh tokens that have been drawn; the service reads neither.
-/

namespace ZevraServer

namespace Auth

open Interleaving

/-- The columns of `users` that are read here. -/
structure Account where
  id : String
  username : String
  email : String
  srpSalt : String
  srpVerifier : String
  isActive : Bool
  deriving DecidableEq, Repr

structure RefreshToken where
  tokenHash : String
  userId : String
  expiresAt : ℕ
  deriving DecidableEq, Repr

/-- The exceptions of the service; `failure` is thrown by a statement or by `BigInt`. -/
inductive Error
  | unauthorized (message : String)
  | conflict (message : String)
  | notFound (message : String)
  | failure
  deriving DecidableEq, Repr

def refreshTokenTtlMs : ℕ := 7*24*60*60*1000

def invalidCredentials : Error := .unauthorized "Invalid username or password"

def sessionExpired : Error := .unauthorized "Login session expired. Please try again."

def invalidRefresh : Error := .unauthorized "Invalid or expired refresh token"

def byName (users : List Account) (username : String) : Option Account :=
  users.find? (·.username = username)

def byId (users : List Account) (id : String) : Option Account := users.find? (·.id = id)

structure RegisterInput where
  username : String
  email : String
  password : String
  deriving DecidableEq, Repr

structure StartReply where
  username : String
  srpSalt : String
  B : String
  deriving DecidableEq, Repr

structure FinishInput where
  username : String
  A : String
  M1 : String
  deriving DecidableEq, Repr

section

variable (C : Crypto) (secret : String)

def hashRefreshToken (token : String) : String := hexText (C.sha256 (utf8 token)).bytes

/-- The row `register` inserts, with the id the database draws and 16 random bytes. -/
def registerRow (input : RegisterInput) (id : String) (random : Bytes) : Account :=
  let srpSalt := hexText random
  let x := Srp.privateKey C srpSalt input.password
  ⟨id,input.username,input.email,srpSalt,bigintToHex (Srp.computeVerifier x),true⟩

/-- The salt, the verifier and the user of `loginStart`. -/
def startCredentials (username : String) (user : Option Account) :
    Option (String × ℕ × Option String) :=
  let decoy := Srp.decoyCredentials C username secret
  match user with
  | some user =>
    if user.isActive then (bigInt? user.srpVerifier).map fun v => (user.srpSalt,v,some user.id)
    else some (decoy.1,decoy.2,none)
  | none => some (decoy.1,decoy.2,none)

/-- The answer of `loginStart` and the state it stores, for the row it read and the
secret it drew. -/
def startReply (username : String) (user : Option Account) (b : ℕ) : Option (StartReply × SrpState) :=
  (startCredentials C secret username user).map fun creds =>
    let B := Srp.generateServerEphemeral C creds.2.1 b
    (⟨username,creds.1,bigintToHex B⟩,⟨b,B,creds.2.2⟩)

/-- The account of an SRP state. -/
def stateUser (users : List Account) (userId : Option String) : Option Account :=
  match userId with
  | some id => if id = "" then none else byId users id
  | none => none

/-- What `loginFinish` decides once it has read the account. For an account it does not
accept it checks the proof against the decoy and drops the result. -/
def verdict (input : FinishInput) (state : SrpState) (A : ℕ) (user : Option Account) :
    Except Error (Account × Srp.Outcome) :=
  match user with
  | none => .error invalidCredentials
  | some user =>
    if user.isActive ∧ user.username = input.username then
      match bigInt? user.srpVerifier with
      | none => .error .failure
      | some v =>
        let result := Srp.verifyClientProof C A input.M1 state.b state.B v user.srpSalt
        if result.valid then .ok (user,result) else .error invalidCredentials
    else .error invalidCredentials

end

/-! ### State -/

structure SrpEntry where
  text : String
  start : ℕ
  deriving DecidableEq, Repr

/-- `srp` is `zevra:srp:{username}`, `now` the clock. -/
structure World where
  users : List Account
  refreshTokens : List RefreshToken
  srp : String → Option SrpEntry
  drawn : List String
  now : ℕ

/-- `fails` lets the statement fail, `drawn` is the random text the step draws. -/
structure Choice where
  fails : Bool
  drawn : String
  deriving DecidableEq, Repr

namespace World

variable (w : World)

def setSrp (username : String) (entry : Option SrpEntry) : World :=
  { w with srp := Function.update w.srp username entry }

/-- The first statement of `issueTokens`, with the token it drew before. -/
def prune (userId token : String) : World :=
  { w with
    refreshTokens := w.refreshTokens.filter fun t => !(t.userId = userId && t.expiresAt < w.now)
    drawn := w.drawn++[token] }

/-- The second statement of `issueTokens`; `token_hash` is unique. -/
def insertToken (t : RefreshToken) : Option World :=
  if ∃ s ∈ w.refreshTokens, s.tokenHash = t.tokenHash then none
  else some { w with refreshTokens := w.refreshTokens++[t] }

def deleteHash (hash : String) : World :=
  { w with refreshTokens := w.refreshTokens.filter (·.tokenHash ≠ hash) }

def deleteUser (userId : String) : World :=
  { w with refreshTokens := w.refreshTokens.filter (·.userId ≠ userId) }

/-- `username` and `email` are unique. -/
def insertUser (row : Account) : Option World :=
  if ∃ u ∈ w.users, u.id = row.id ∨ u.username = row.username ∨ u.email = row.email then none
  else some { w with users := w.users++[row] }

def rename (userId username : String) : Option World :=
  if (byId w.users userId).isSome ∧ ∃ u ∈ w.users, u.username = username ∧ u.id ≠ userId then none
  else some { w with users := w.users.map fun u => if u.id = userId then { u with username := username } else u }

def setActive (userId : String) (active : Bool) : World :=
  { w with users := w.users.map fun u => if u.id = userId then { u with isActive := active } else u }

end World

/-! ### Calls -/

/-- The secret `b` is drawn when the request arrives. -/
inductive LoginStart
  | select (username : String) (b : ℕ)
  | set (username : String) (user : Option Account) (reply : StartReply) (state : SrpState)
  | done (username : String) (user : Option Account) (reply : StartReply) (state : SrpState)
  | failed (error : Error)
  deriving DecidableEq, Repr

/-- A login whose proof was accepted. -/
structure Accepted where
  input : FinishInput
  start : ℕ
  state : SrpState
  A : ℕ
  user : Account
  outcome : Srp.Outcome
  deriving DecidableEq, Repr

/-- In `online` the tokens are issued and the statements after them are left. -/
inductive LoginFinish
  | consume (input : FinishInput)
  | select (input : FinishInput) (start : ℕ) (state : SrpState) (A : ℕ)
  | prune (login : Accepted)
  | insert (login : Accepted) (token : String) (expiresAt : ℕ)
  | online (login : Accepted) (token : String)
  | done (login : Accepted) (token : String)
  | refused (error : Error)
  | failed (login : Accepted)
  deriving DecidableEq, Repr

/-- `record` is the row the first statement deleted. -/
inductive Refresh
  | delete (token : String)
  | received (token : String) (record : RefreshToken)
  | selected (token : String) (record : RefreshToken) (user : Option Account)
  | insert (token : String) (record : RefreshToken) (user : Account) (issued : String) (expiresAt : ℕ)
  | done (token : String) (record : RefreshToken) (user : Account) (issued : String)
  | refused (error : Error)
  | failed (record : RefreshToken) (error : Error)
  deriving DecidableEq, Repr

inductive Logout
  | audit (userId : String)
  | status (userId : String)
  | delete (userId : String)
  | offline (userId : String)
  | done (userId : String)
  | failed (userId : String)
  deriving DecidableEq, Repr

/-- The 16 bytes of the salt are drawn when the request arrives. -/
inductive Register
  | select (input : RegisterInput) (random : Bytes)
  | insert (input : RegisterInput) (random : Bytes)
  | done (user : Account)
  | failed (error : Error)
  deriving DecidableEq, Repr

inductive UpdateProfile
  | select (userId username : String)
  | update (userId username : String)
  | done (user : Account)
  | failed (error : Error)
  deriving DecidableEq, Repr

inductive Call
  | loginStart (q : LoginStart)
  | loginFinish (q : LoginFinish)
  | refreshTokens (q : Refresh)
  | logout (q : Logout)
  | register (q : Register)
  | updateProfile (q : UpdateProfile)
  deriving DecidableEq, Repr

/-- Entries expire, accounts are switched off and on, and time passes. -/
inductive Env
  | expire (username : String)
  | setActive (userId : String) (active : Bool)
  | tick (ms : ℕ)
  deriving DecidableEq, Repr

section

variable (C : Crypto) (secret : String)

def LoginStart.step (p : ℕ) (q : LoginStart) (ch : Choice) (w : World) : Option (LoginStart × World) :=
  match q with
  | .select username b =>
    if ch.fails then some (.failed .failure,w)
    else
      let user := byName w.users username
      match startReply C secret username user b with
      | none => some (.failed .failure,w)
      | some r => some (.set username user r.1 r.2,w)
  | .set username user reply state =>
    if ch.fails then some (.failed .failure,w)
    else some (.done username user reply state,w.setSrp username (some ⟨state.text,p⟩))
  | .done _ _ _ _ => none
  | .failed _ => none

def LoginFinish.step (q : LoginFinish) (ch : Choice) (w : World) : Option (LoginFinish × World) :=
  match q with
  | .consume input =>
    if ch.fails then some (.refused .failure,w)
    else
      match w.srp input.username with
      | none => some (.refused sessionExpired,w)
      | some entry =>
        let w := w.setSrp input.username none
        match SrpState.ofText entry.text with
        | none => some (.refused sessionExpired,w)
        | some state =>
          match Srp.parseClientEphemeral input.A with
          | none => some (.refused invalidCredentials,w)
          | some A => some (.select input entry.start state A,w)
  | .select input start state A =>
    if ch.fails then some (.refused .failure,w)
    else
      match verdict C input state A (stateUser w.users state.userId) with
      | .error e => some (.refused e,w)
      | .ok r => some (.prune ⟨input,start,state,A,r.1,r.2⟩,w)
  | .prune login =>
    if ch.fails then some (.failed login,w)
    else some (.insert login ch.drawn (w.now+refreshTokenTtlMs),w.prune login.user.id ch.drawn)
  | .insert login token expiresAt =>
    if ch.fails then some (.failed login,w)
    else
      match w.insertToken ⟨hashRefreshToken C token,login.user.id,expiresAt⟩ with
      | none => some (.failed login,w)
      | some w' => some (.online login token,w')
  | .online login token => if ch.fails then some (.failed login,w) else some (.done login token,w)
  | .done _ _ => none
  | .refused _ => none
  | .failed _ => none

def Refresh.step (q : Refresh) (ch : Choice) (w : World) : Option (Refresh × World) :=
  match q with
  | .delete token =>
    if ch.fails then some (.refused .failure,w)
    else
      match w.refreshTokens.find? (·.tokenHash = hashRefreshToken C token) with
      | none => some (.refused invalidRefresh,w)
      | some record => some (.received token record,w.deleteHash (hashRefreshToken C token))
  | .received token record =>
    if record.expiresAt < w.now then some (.failed record invalidRefresh,w)
    else if ch.fails then some (.failed record .failure,w)
    else some (.selected token record (byId w.users record.userId),w)
  | .selected token record user =>
    if ch.fails then some (.failed record .failure,w)
    else
      match user.filter (·.isActive) with
      | none => some (.failed record invalidRefresh,w.deleteUser record.userId)
      | some user =>
        some (.insert token record user ch.drawn (w.now+refreshTokenTtlMs),w.prune record.userId ch.drawn)
  | .insert token record user issued expiresAt =>
    if ch.fails then some (.failed record .failure,w)
    else
      match w.insertToken ⟨hashRefreshToken C issued,record.userId,expiresAt⟩ with
      | none => some (.failed record .failure,w)
      | some w' => some (.done token record user issued,w')
  | .done _ _ _ _ => none
  | .refused _ => none
  | .failed _ _ => none

/-- A failure of the audit row is swallowed. -/
def Logout.step (q : Logout) (ch : Choice) (w : World) : Option (Logout × World) :=
  match q with
  | .audit u => some (.status u,w)
  | .status u => if ch.fails then some (.failed u,w) else some (.delete u,w)
  | .delete u => if ch.fails then some (.failed u,w) else some (.offline u,w.deleteUser u)
  | .offline u => if ch.fails then some (.failed u,w) else some (.done u,w)
  | .done _ => none
  | .failed _ => none

def Register.step (q : Register) (ch : Choice) (w : World) : Option (Register × World) :=
  match q with
  | .select input random =>
    if ch.fails then some (.failed .failure,w)
    else
      match w.users.find? fun u => u.username = input.username || u.email = input.email with
      | some existing =>
        some (.failed (.conflict (if existing.username = input.username then "Username already taken"
          else "Email already registered")),w)
      | none => some (.insert input random,w)
  | .insert input random =>
    if ch.fails then some (.failed .failure,w)
    else
      let row := registerRow C input ch.drawn random
      match w.insertUser row with
      | none => some (.failed (.conflict "Resource already exists"),w)
      | some w' => some (.done row,w')
  | .done _ => none
  | .failed _ => none

def UpdateProfile.step (q : UpdateProfile) (ch : Choice) (w : World) : Option (UpdateProfile × World) :=
  match q with
  | .select userId username =>
    if ch.fails then some (.failed .failure,w)
    else if w.users.any fun u => u.username = username && u.id ≠ userId then
      some (.failed (.conflict "Username already taken"),w)
    else some (.update userId username,w)
  | .update userId username =>
    if ch.fails then some (.failed .failure,w)
    else
      match w.rename userId username with
      | none => some (.failed (.conflict "Resource already exists"),w)
      | some w' =>
        match byId w'.users userId with
        | none => some (.failed (.notFound "User not found"),w')
        | some user => some (.done user,w')
  | .done _ => none
  | .failed _ => none

def Call.step (p : ℕ) (q : Call) (ch : Choice) (w : World) : Option (Call × World) :=
  match q with
  | .loginStart q => (q.step C secret p ch w).map fun r => (.loginStart r.1,r.2)
  | .loginFinish q => (q.step C ch w).map fun r => (.loginFinish r.1,r.2)
  | .refreshTokens q => (q.step C ch w).map fun r => (.refreshTokens r.1,r.2)
  | .logout q => (q.step ch w).map fun r => (.logout r.1,r.2)
  | .register q => (q.step C ch w).map fun r => (.register r.1,r.2)
  | .updateProfile q => (q.step ch w).map fun r => (.updateProfile r.1,r.2)

def Env.apply (e : Env) (w : World) : Option World :=
  match e with
  | .expire username => some (w.setSrp username none)
  | .setActive userId active => some (w.setActive userId active)
  | .tick ms => some { w with now := w.now+ms }

def system : System World Call Choice Env := ⟨Call.step C secret,Env.apply⟩

end

/-- Control states in which a request arrives. -/
inductive Call.Initial : Call → Prop
  | loginStart (username b) : Initial (.loginStart (.select username b))
  | loginFinish (input) : Initial (.loginFinish (.consume input))
  | refreshTokens (token) : Initial (.refreshTokens (.delete token))
  | logout (userId) : Initial (.logout (.audit userId))
  | register (input random) : Initial (.register (.select input random))
  | updateProfile (userId username) : Initial (.updateProfile (.select userId username))

def Call.isInitial : Call → Bool
  | .loginStart (.select _ _) => true
  | .loginFinish (.consume _) => true
  | .refreshTokens (.delete _) => true
  | .logout (.audit _) => true
  | .register (.select _ _) => true
  | .updateProfile (.select _ _) => true
  | _ => false

theorem Call.initial_of_isInitial {q : Call} (h : q.isInitial = true) : q.Initial := by
  cases q with
  | loginStart q => cases q <;> first | exact .loginStart _ _ | simp [isInitial] at h
  | loginFinish q => cases q <;> first | exact .loginFinish _ | simp [isInitial] at h
  | refreshTokens q => cases q <;> first | exact .refreshTokens _ | simp [isInitial] at h
  | logout q => cases q <;> first | exact .logout _ | simp [isInitial] at h
  | register q => cases q <;> first | exact .register _ _ | simp [isInitial] at h
  | updateProfile q => cases q <;> first | exact .updateProfile _ _ | simp [isInitial] at h

/-- Requests arrive in their first control state. -/
def Arrives (_ : Config World Call) : Label Call Choice Env → Prop
  | .spawn q => q.Initial
  | _ => True

end Auth

end ZevraServer
