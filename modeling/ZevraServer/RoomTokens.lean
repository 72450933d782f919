import ZevraServer.RoomNames
import ZevraServer.Pools

/-!
# The tokens of LiveKit rooms

Tokens are created by `POST /livekit/token`, `call:livekit-join-group`, `call:initiate` of a group
and `call:livekit-fallback`. The requests run in steps, one for each statement, while memberships
and users change. A token is created for a pair of a room and a user that its request has
checked, or could have checked when it arrived.
-/

namespace ZevraServer

namespace LiveKit

open Interleaving
open Raw.State (getGroupRoomName MAX_GROUP_TARGETS)
open Calls (SocketUser Refusal)

/-! ### Requests -/

/-- What a step finds: whether its statement throws, what the rate limiter says, whether
`getActiveCall` returns a call. -/
structure Choice where
  fails : Bool
  allowed : Bool
  busy : Bool
  setting : Setting
  ids : Ids
  deriving DecidableEq, Repr

/-- The acknowledgement of an event or the answer to a request; `thrown` stands for the error
of a failed statement. -/
inductive Reply
  | success (roomName : String) (token : Option Token) (callLogId : Option Uuid)
  | refused (r : Refusal)
  | http (status : ℕ) (messages : List String)
  | thrown
  deriving DecidableEq, Repr

def refuse (error message : String) : Reply := .refused ⟨error,message,none⟩

def invalid (message : String) : Reply := refuse "VALIDATION_ERROR" message

def notConfigured : Reply := refuse "LIVEKIT_NOT_CONFIGURED" "Calls are not available"

def tooMany : Reply := refuse "RATE_LIMITED" "Too many call attempts"

def noTarget : Reply := refuse "NO_TARGET" "A target user is required"

namespace World

variable (w : World)

def mint (p : ℕ) (t : Token) : World := { w with minted := w.minted++[⟨p,t⟩] }

def emit (i : Invitation) : World := { w with emitted := w.emitted++[i] }

end World

/-- `getToken` and `handleLiveKitJoinGroup` differ in what they check and answer. -/
inductive Door
  | token (participantName : Option String)
  | joinGroup
  deriving DecidableEq, Repr

def LivekitTokenDto.messages (body : LivekitTokenDto) : List String :=
  (if DTO_ROOM_RE.test body.roomName.toList then [] else ["roomName is invalid"])++
    if body.participantName.all (·.length ≤ 64) then []
    else ["participantName must be shorter than or equal to 64 characters"]

namespace Door

def refuse? (d : Door) (w : World) (roomName : String) : Option Reply :=
  match d with
  | .token participantName =>
    if LivekitTokenDto.valid ⟨roomName,participantName⟩ then none
    else some (.http 400 (LivekitTokenDto.messages ⟨roomName,participantName⟩))
  | .joinGroup =>
    if !ROOM_NAME_RE.test roomName.toList then some (invalid "roomName is invalid")
    else if !w.isConfigured then some notConfigured
    else none

def denied (d : Door) : Reply :=
  match d with
  | .token _ => .http 403 ["Not allowed to join this room"]
  | .joinGroup => refuse "NOT_MEMBER" "Not allowed to join this call"

def noToken (d : Door) : Reply :=
  match d with
  | .token _ => .http 503 ["Calls are not available"]
  | .joinGroup => refuse "TOKEN_FAILED" "Could not join the call"

end Door

inductive Enter
  | request (door : Door) (user : SocketUser) (roomName : String)
  | authorize (door : Door) (user : SocketUser) (roomName : String)
  | generate (door : Door) (user : SocketUser) (roomName : String)
  | done (r : Reply)
  deriving DecidableEq, Repr

def Enter.step (p : ℕ) (q : Enter) (ch : Choice) (w : World) : Option (Enter × World) :=
  match q with
  | .request d user r =>
    match d.refuse? w r with
    | some reply => some (.done reply,w)
    | none => some (.authorize d user r,w)
  | .authorize d user r =>
    if w.authorizeRoomAccess ch.fails r user.id then some (.generate d user r,w) else some (.done d.denied,w)
  | .generate d user r =>
    if ch.fails then some (.done .thrown,w)
    else match w.generateToken r user.id user.username with
      | none => some (.done d.noToken,w)
      | some t => some (.done (.success r (some t) none),w.mint p t)
  | .done _ => none

/-- The checks `handleInitiate` and `handleLiveKitFallback` begin with. -/
def invalidIds? (targetUserIds : List RawId) (channelId : Option RawId) : Option Reply :=
  if MAX_GROUP_TARGETS < targetUserIds.length ∨ ¬(targetUserIds.all isUuid) then
    some (invalid "targetUserIds must be a list of user ids")
  else if !(channelId.all isUuid) then some (invalid "channelId must be a valid id")
  else none

/-- The name of a user in the map of `getUsernames`; an empty name counts as none. -/
def nameOf? (names : List User) (userId : RawId) : Option String :=
  ((names.find? fun u => Uuid.text u.id = userId).map (·.username)).filter (· ≠ "")

/-- `call:initiate` of a group. -/
inductive Group
  | request (user : SocketUser) (targetUserIds : List RawId) (channelId : Option RawId)
  | active (user : SocketUser) (targetUserIds : List RawId) (channelId : Option RawId)
  | authorize (user : SocketUser) (targetUserIds : List RawId) (channelId : RawId)
  | log (user : SocketUser) (targetUserIds : List RawId) (channelId : RawId)
  | creator (user : SocketUser) (targetUserIds : List RawId) (channelId : RawId) (callLogId : Uuid)
  | names (user : SocketUser) (targetUserIds : List RawId) (channelId : RawId) (reply : Reply)
  | invite (user : SocketUser) (channelId : RawId) (found : List User) (targets : List RawId) (reply : Reply)
  | token (user : SocketUser) (channelId : RawId) (found : List User) (targetId : RawId) (name : String)
      (targets : List RawId) (reply : Reply)
  | done (r : Reply)
  deriving DecidableEq, Repr

/-- Each target once, in the order of the request. -/
def candidates (user : SocketUser) (targetUserIds : List RawId) : List RawId :=
  (targetUserIds.filter (· ≠ user.id)).eraseDups

def Group.step (p : ℕ) (q : Group) (ch : Choice) (w : World) : Option (Group × World) :=
  match q with
  | .request user ts c =>
    match invalidIds? ts c with
    | some reply => some (.done reply,w)
    | none => if !ch.allowed then some (.done tooMany,w) else some (.active user ts c,w)
  | .active user ts c =>
    if ch.fails then some (.done .thrown,w)
    else if ch.busy then some (.done (refuse "ALREADY_IN_CALL" "You are already in a call"),w)
    else match c with
      | none => some (.done (refuse "CHANNEL_REQUIRED" "channelId is required"),w)
      | some c => some (.authorize user ts c,w)
  | .authorize user ts c =>
    if w.authorizeRoomAccess ch.fails (getGroupRoomName c) user.id then some (.log user ts c,w)
    else some (.done (refuse "NOT_MEMBER" "Not a member of this channel"),w)
  | .log user ts c =>
    if !w.isConfigured then some (.done notConfigured,w)
    else if ch.fails then some (.done .thrown,w)
    else match w.createCallLog ch.setting ch.ids .livekit user.id none (some (getGroupRoomName c)) (some c) with
      | none => some (.done .thrown,w)
      | some w => some (.creator user ts c ch.ids.log,w)
  | .creator user ts c callLogId =>
    if ch.fails then some (.done .thrown,w)
    else match w.generateToken (getGroupRoomName c) user.id user.username with
      | none => some (.names user ts c (.success (getGroupRoomName c) none (some callLogId)),w)
      | some t => some (.names user ts c (.success (getGroupRoomName c) (some t) (some callLogId)),w.mint p t)
  | .names user ts c reply =>
    if ch.fails then some (.done .thrown,w)
    else some (.invite user c (w.getUsernames (candidates user ts)) (candidates user ts) reply,w)
  | .invite _ _ _ [] reply => some (.done reply,w)
  | .invite user c found (t::ts) reply =>
    match nameOf? found t with
    | none => some (.invite user c found ts reply,w)
    | some name =>
      if w.authorizeRoomAccess ch.fails (getGroupRoomName c) t then some (.token user c found t name ts reply,w)
      else some (.invite user c found ts reply,w)
  | .token user c found t name ts reply =>
    if ch.fails then some (.done .thrown,w)
    else match w.generateToken (getGroupRoomName c) t name with
      | none => some (.invite user c found ts reply,w)
      | some k => some (.invite user c found ts reply,(w.mint p k).emit ⟨true,t,k,user.id,user.username⟩)
  | .done _ => none

/-- `call:livekit-fallback`. -/
inductive Fallback
  | request (user : SocketUser) (targetUserIds : List RawId) (channelId : Option RawId)
  | log (user : SocketUser) (targetId : RawId) (channelId : Option RawId)
  | token (user : SocketUser) (targetId : RawId) (callLogId : Uuid)
  | names (user : SocketUser) (targetId : RawId) (reply : Reply)
  | target (user : SocketUser) (targetId : RawId) (name : String) (reply : Reply)
  | done (r : Reply)
  deriving DecidableEq, Repr

/-- The target of a fallback. -/
def fallbackTarget? (user : SocketUser) (targetUserIds : List RawId) : Option RawId :=
  targetUserIds.head?.filter fun t => t ≠ "" && t ≠ user.id

def Fallback.step (p : ℕ) (q : Fallback) (ch : Choice) (w : World) : Option (Fallback × World) :=
  match q with
  | .request user ts c =>
    match invalidIds? ts c with
    | some reply => some (.done reply,w)
    | none =>
      if !w.isConfigured then some (.done notConfigured,w)
      else if !ch.allowed then some (.done tooMany,w)
      else match fallbackTarget? user ts with
        | none => some (.done noTarget,w)
        | some t => some (.log user t c,w)
  | .log user t c =>
    if ch.fails then some (.done .thrown,w)
    else match w.createCallLog ch.setting ch.ids .livekit user.id (some t) (some (getDmRoomName user.id t)) c with
      | none => some (.done .thrown,w)
      | some w => some (.token user t ch.ids.log,w)
  | .token user t callLogId =>
    if ch.fails then some (.done .thrown,w)
    else match w.generateToken (getDmRoomName user.id t) user.id user.username with
      | none => some (.done (refuse "TOKEN_FAILED" "Could not start the call"),w)
      | some k => some (.names user t (.success (getDmRoomName user.id t) (some k) (some callLogId)),w.mint p k)
  | .names user t reply =>
    if ch.fails then some (.done .thrown,w)
    else match nameOf? (w.getUsernames [t]) t with
      | none => some (.done reply,w)
      | some name => some (.target user t name reply,w)
  | .target user t name reply =>
    if ch.fails then some (.done .thrown,w)
    else match w.generateToken (getDmRoomName user.id t) t name with
      | none => some (.done reply,w)
      | some k => some (.done reply,(w.mint p k).emit ⟨false,t,k,user.id,user.username⟩)
  | .done _ => none

inductive Request
  | enter (q : Enter)
  | group (q : Group)
  | fallback (q : Fallback)
  deriving DecidableEq, Repr

def Request.step (p : ℕ) (q : Request) (ch : Choice) (w : World) : Option (Request × World) :=
  match q with
  | .enter q => (q.step p ch w).map fun r => (.enter r.1,r.2)
  | .group q => (q.step p ch w).map fun r => (.group r.1,r.2)
  | .fallback q => (q.step p ch w).map fun r => (.fallback r.1,r.2)

/-- What else happens: users, channels and memberships change, and LiveKit calls the webhook. -/
inductive Env
  | tables (users : List User) (channels : List Uuid) (memberships : List Membership)
  | webhook (e : Setting) (i : Ids) (h : Webhook)

def Env.step (e : Env) (w : World) : Option World :=
  match e with
  | .tables us cs ms => some { w with users := us, channels := cs, memberships := ms }
  | .webhook e i h => some (w.handleWebhook e i h)

def system : System World Request Choice Env := ⟨Request.step,Env.step⟩

/-- The user of a guard or a socket, as Postgres writes the id. -/
def Request.Initial (q : Request) : Prop :=
  (∃ d user r, isUuid user.id = true ∧ q = .enter (.request d user r)) ∨
  (∃ user ts c, isUuid user.id = true ∧ q = .group (.request user ts c)) ∨
  ∃ user ts c, isUuid user.id = true ∧ q = .fallback (.request user ts c)

/-- Requests arrive in their first control state. -/
def Arriving (_ : Config World Request) : Label Request Choice Env → Prop
  | .spawn q => q.Initial
  | _ => True

/-! ### Checked pairs -/

abbrev Steps := List (Config World Request × Label Request Choice Env)

/-- The rooms and users a request is about to check; a fallback makes no check, as the name is
built from the ids it has just read. -/
def Request.checks : Request → List (String × RawId)
  | .enter (.authorize _ user r) => [(r,user.id)]
  | .group (.authorize user _ c) => [(getGroupRoomName c,user.id)]
  | .group (.invite _ c _ (t::_) _) => [(getGroupRoomName c,t)]
  | .fallback (.request user ts _) => (fallbackTarget? user ts).toList.flatMap fun t =>
      [(getDmRoomName user.id t,user.id),(getDmRoomName user.id t,t)]
  | _ => []

/-- The request had the pair to check in a state that accepts it. -/
def Checked (tr : Steps) (p : ℕ) (roomName : String) (userId : RawId) : Prop :=
  ∃ c ch q, (c,.run p ch) ∈ tr ∧ c.pool[p]? = some q ∧ (roomName,userId) ∈ q.checks ∧
    c.world.authorizeRoomAccess false roomName userId = true

def Minted.Sound (tr : Steps) (m : Minted) : Prop := Checked tr m.request m.token.room m.token.identity

def Enter.Knows (tr : Steps) (p : ℕ) : Enter → Prop
  | .generate _ user r => Checked tr p r user.id
  | _ => True

def Group.Knows (tr : Steps) (p : ℕ) : Group → Prop
  | .log user _ c => Checked tr p (getGroupRoomName c) user.id
  | .creator user _ c _ => Checked tr p (getGroupRoomName c) user.id
  | .token _ c _ t _ _ _ => Checked tr p (getGroupRoomName c) t
  | _ => True

/-- Both users of a direct room. -/
def BothChecked (tr : Steps) (p : ℕ) (a b : RawId) : Prop :=
  Checked tr p (getDmRoomName a b) a ∧ Checked tr p (getDmRoomName a b) b

def Fallback.Knows (tr : Steps) (p : ℕ) : Fallback → Prop
  | .request user _ _ => isUuid user.id = true
  | .log user t _ => BothChecked tr p user.id t
  | .token user t _ => BothChecked tr p user.id t
  | .names user t _ => BothChecked tr p user.id t
  | .target user t _ _ => BothChecked tr p user.id t
  | .done _ => True

def Request.Knows (tr : Steps) (p : ℕ) : Request → Prop
  | .enter q => q.Knows tr p
  | .group q => q.Knows tr p
  | .fallback q => q.Knows tr p

section

variable {tr tr' : Steps} {p : ℕ} {ch : Choice} {w w' : World} {r : String} {u : RawId}

/-- A failed query lets nobody in that it would have kept out. -/
theorem authorize_of_fails {fails : Bool} (h : w.authorizeRoomAccess fails r u = true) :
    w.authorizeRoomAccess false r u = true := by
  cases fails with
  | false => exact h
  | true =>
    simp only [World.authorizeRoomAccess] at h ⊢
    split at h
    · exact h
    · split at h <;> simp at h

theorem minted_createCallLog {e : Setting} {i : Ids} {type : Raw.CallType} {a : RawId} {b : Option RawId}
    {c : Option String} {d : Option RawId} (h : w.createCallLog e i type a b c d = some w') :
    w'.minted = w.minted := by
  unfold World.createCallLog at h
  split at h
  · obtain rfl := Option.some.inj h
    rfl
  · simp at h

theorem token_eq {t : Token} {name : String} (h : w.generateToken r u name = some t) : t = ⟨r,u,name⟩ := by
  unfold World.generateToken at h
  split at h
  · exact (Option.some.inj h).symm
  · simp at h

/-- The target of a fallback has passed the checks of the request. -/
theorem fallbackTarget_isUuid {user : SocketUser} {ts : List RawId} {c : Option RawId} {t : RawId}
    (hids : invalidIds? ts c = none) (ht : fallbackTarget? user ts = some t) : isUuid t = true := by
  unfold invalidIds? at hids
  split at hids
  · simp at hids
  · rename_i hlist
    have hall : ts.all isUuid = true := by
      by_contra hno
      exact hlist (.inr hno)
    exact List.all_eq_true.mp hall t (List.mem_of_mem_head? (Option.filter_eq_some_iff.mp ht).1)

/-- What a step mints is sound, beside what was minted before. -/
def Mints (tr : Steps) (w w' : World) : Prop := ∀ m ∈ w'.minted, m ∈ w.minted ∨ m.Sound tr

theorem Mints.of_eq (h : w'.minted = w.minted) : Mints tr w w' := fun _ hm => .inl (h ▸ hm)

theorem Mints.mint {t : Token} {name : String} (h : w.generateToken r u name = some t) (hc : Checked tr p r u) :
    Mints tr w (w.mint p t) := by
  obtain rfl := token_eq h
  intro m hm
  rcases List.mem_append.mp hm with hold | hnew
  · exact .inl hold
  · obtain rfl := List.mem_singleton.mp hnew
    exact .inr hc

/-- The pairs a step may take as checked: those checked before, and those of its control state
that are accepted now. -/
structure Now (tr tr' : Steps) (p : ℕ) (q : Request) (w : World) : Prop where
  before : ∀ {r u}, Checked tr p r u → Checked tr' p r u
  here : ∀ {r u}, (r,u) ∈ q.checks → w.authorizeRoomAccess false r u = true → Checked tr' p r u

theorem settled {Q : Type} {K : Q → Prop} {q q' : Q} {v : World} (hs : some (q,v) = some (q',w')) (hk : K q)
    (hm : Mints tr w v) : K q' ∧ Mints tr w w' := by
  obtain ⟨rfl,rfl⟩ := Prod.mk.inj (Option.some.inj hs)
  exact ⟨hk,hm⟩

/-- The same for a step that leaves the world as it is. -/
theorem idle {Q : Type} {K : Q → Prop} {q q' : Q} (hs : some (q,w) = some (q',w')) (hk : K q) :
    K q' ∧ Mints tr w w' :=
  settled hs hk (.of_eq rfl)

theorem Enter.step_knows {q q' : Enter} (hs : q.step p ch w = some (q',w')) (hn : Now tr tr' p (.enter q) w)
    (hq : q.Knows tr p) : q'.Knows tr' p ∧ Mints tr' w w' := by
  cases q with
  | request d user r =>
    simp only [Enter.step] at hs
    split at hs <;> exact idle hs trivial
  | authorize d user r =>
    simp only [Enter.step] at hs
    split at hs
    · rename_i hauth
      exact idle hs (hn.here (by simp [Request.checks]) (authorize_of_fails hauth))
    · exact idle hs trivial
  | generate d user r =>
    simp only [Enter.step] at hs
    split at hs
    · exact idle hs trivial
    · split at hs
      · exact idle hs trivial
      · rename_i t ht
        exact settled hs trivial (.mint ht (hn.before hq))
  | done => simp [Enter.step] at hs

theorem Group.step_knows {q q' : Group} (hs : q.step p ch w = some (q',w')) (hn : Now tr tr' p (.group q) w)
    (hq : q.Knows tr p) : q'.Knows tr' p ∧ Mints tr' w w' := by
  cases q with
  | request user ts c =>
    simp only [Group.step] at hs
    split at hs
    · exact idle hs trivial
    · split at hs <;> exact idle hs trivial
  | active user ts c =>
    simp only [Group.step] at hs
    split at hs
    · exact idle hs trivial
    · split at hs
      · exact idle hs trivial
      · split at hs <;> exact idle hs trivial
  | authorize user ts c =>
    simp only [Group.step] at hs
    split at hs
    · rename_i hauth
      exact idle hs (hn.here (by simp [Request.checks]) (authorize_of_fails hauth))
    · exact idle hs trivial
  | log user ts c =>
    simp only [Group.step] at hs
    split at hs
    · exact idle hs trivial
    · split at hs
      · exact idle hs trivial
      · split at hs
        · exact idle hs trivial
        · rename_i v hv
          exact settled hs (hn.before hq) (.of_eq (minted_createCallLog hv))
  | creator user ts c id =>
    simp only [Group.step] at hs
    split at hs
    · exact idle hs trivial
    · split at hs
      · exact idle hs trivial
      · rename_i t ht
        exact settled hs trivial (.mint ht (hn.before hq))
  | names user ts c reply =>
    simp only [Group.step] at hs
    split at hs <;> exact idle hs trivial
  | invite user c found ts reply =>
    cases ts with
    | nil =>
      exact idle hs trivial
    | cons t ts =>
      simp only [Group.step] at hs
      split at hs
      · exact idle hs trivial
      · split at hs
        · rename_i hauth
          exact idle hs (hn.here (by simp [Request.checks]) (authorize_of_fails hauth))
        · exact idle hs trivial
  | token user c found t name ts reply =>
    simp only [Group.step] at hs
    split at hs
    · exact idle hs trivial
    · split at hs
      · exact idle hs trivial
      · rename_i k hk
        exact settled hs trivial (.mint hk (hn.before hq))
  | done => simp [Group.step] at hs

theorem Fallback.step_knows {q q' : Fallback} (hs : q.step p ch w = some (q',w'))
    (hn : Now tr tr' p (.fallback q) w) (hq : q.Knows tr p) : q'.Knows tr' p ∧ Mints tr' w w' := by
  have hboth : ∀ {a b}, BothChecked tr p a b → BothChecked tr' p a b := fun h => ⟨hn.before h.1,hn.before h.2⟩
  cases q with
  | request user ts c =>
    simp only [Fallback.step] at hs
    split at hs
    · exact idle hs trivial
    · rename_i hids
      split at hs
      · exact idle hs trivial
      · split at hs
        · exact idle hs trivial
        · split at hs
          · exact idle hs trivial
          · rename_i t ht
            have hself : isUuid user.id = true := hq
            have htarget : isUuid t = true := fallbackTarget_isUuid hids ht
            have hmem : ∀ v ∈ [user.id,t], (getDmRoomName user.id t,v) ∈ (Request.fallback (.request user ts c)).checks := by
              intro v hv
              simpa [Request.checks,ht] using hv
            refine idle hs ⟨hn.here (hmem _ (by simp)) ?_,hn.here (hmem _ (by simp)) ?_⟩
            · exact (authorize_dm hself htarget).mpr (.inl rfl)
            · exact (authorize_dm hself htarget).mpr (.inr rfl)
  | log user t c =>
    simp only [Fallback.step] at hs
    split at hs
    · exact idle hs trivial
    · split at hs
      · exact idle hs trivial
      · rename_i v hv
        exact settled hs (hboth hq) (.of_eq (minted_createCallLog hv))
  | token user t id =>
    simp only [Fallback.step] at hs
    split at hs
    · exact idle hs trivial
    · split at hs
      · exact idle hs trivial
      · rename_i k hk
        exact settled hs (hboth hq) (.mint hk (hboth hq).1)
  | names user t reply =>
    simp only [Fallback.step] at hs
    split at hs
    · exact idle hs trivial
    · split at hs
      · exact idle hs trivial
      · exact idle hs (hboth hq)
  | target user t name reply =>
    simp only [Fallback.step] at hs
    split at hs
    · exact idle hs trivial
    · split at hs
      · exact idle hs trivial
      · rename_i k hk
        exact settled hs trivial (.mint hk (hboth hq).2)
  | done => simp [Fallback.step] at hs

theorem Request.step_knows {q q' : Request} (hs : q.step p ch w = some (q',w')) (hn : Now tr tr' p q w)
    (hq : q.Knows tr p) : q'.Knows tr' p ∧ Mints tr' w w' := by
  cases q with
  | enter q =>
    obtain ⟨r,hr,he⟩ := Option.map_eq_some_iff.mp hs
    obtain ⟨rfl,rfl⟩ := Prod.mk.inj he
    exact Enter.step_knows hr hn hq
  | group q =>
    obtain ⟨r,hr,he⟩ := Option.map_eq_some_iff.mp hs
    obtain ⟨rfl,rfl⟩ := Prod.mk.inj he
    exact Group.step_knows hr hn hq
  | fallback q =>
    obtain ⟨r,hr,he⟩ := Option.map_eq_some_iff.mp hs
    obtain ⟨rfl,rfl⟩ := Prod.mk.inj he
    exact Fallback.step_knows hr hn hq

end

/-! ### The runs -/

section

variable {tr : Steps} {s : Config World Request × Label Request Choice Env} {c d : Config World Request}
  {l : Label Request Choice Env} {p : ℕ} {r : String} {u : RawId}

theorem Checked.snoc (h : Checked tr p r u) : Checked (tr++[s]) p r u := by
  obtain ⟨c,ch,q,hmem,hrest⟩ := h
  exact ⟨c,ch,q,List.mem_append_left _ hmem,hrest⟩

theorem Request.Knows.snoc {q : Request} (h : q.Knows tr p) : q.Knows (tr++[s]) p := by
  cases q with
  | enter q =>
    cases q with
    | generate => exact Checked.snoc h
    | _ => trivial
  | group q =>
    cases q with
    | log => exact Checked.snoc h
    | creator => exact Checked.snoc h
    | token => exact Checked.snoc h
    | _ => trivial
  | fallback q =>
    cases q with
    | request => exact h
    | done => trivial
    | _ => exact ⟨Checked.snoc h.1,Checked.snoc h.2⟩

theorem minted_insertRoomLog (w : World) (i : Ids) (k : CallLog) : (w.insertRoomLog i k).minted = w.minted := by
  unfold World.insertRoomLog
  split <;> rfl

theorem minted_insertParticipant (w : World) (k : Participant) : (w.insertParticipant k).minted = w.minted := by
  unfold World.insertParticipant
  split <;> rfl

theorem minted_handleWebhook (w : World) (e : Setting) (i : Ids) (h : Webhook) :
    (w.handleWebhook e i h).minted = w.minted := by
  unfold World.handleWebhook
  split
  · unfold World.handleRoomStarted
    split_ifs <;> simp [minted_insertRoomLog]
  · unfold World.handleRoomFinished
    split_ifs <;> simp [minted_insertRoomLog]
  · unfold World.handleParticipantJoined
    split
    · rfl
    · split
      · rfl
      · split
        · rfl
        · split
          · rfl
          · exact minted_insertParticipant _ _
  · unfold World.handleParticipantLeft
    split
    · rfl
    · split
      · rfl
      · split
        · rfl
        · split <;> rfl
  · rfl

/-- What holds along a run. -/
structure TokensSound (tr : Steps) (c : Config World Request) : Prop where
  knows : ∀ (p : ℕ) (q : Request), c.pool[p]? = some q → q.Knows tr p
  minted : ∀ m ∈ c.world.minted, m.Sound tr

theorem Request.Initial.knows {q : Request} (h : q.Initial) : q.Knows tr p := by
  rcases h with ⟨_,_,_,_,rfl⟩ | ⟨_,_,_,_,rfl⟩ | ⟨_,_,_,hu,rfl⟩
  · trivial
  · trivial
  · exact hu

theorem TokensSound.next (h : TokensSound tr c) (hl : Arriving c l) (hn : system.next c l = some d) :
    TokensSound (tr++[(c,l)]) d := by
  have hknows : ∀ (p : ℕ) (q : Request), c.pool[p]? = some q → q.Knows (tr++[(c,l)]) p :=
    fun p q hq => (h.knows p q hq).snoc
  have hminted : ∀ m ∈ c.world.minted, m.Sound (tr++[(c,l)]) := fun m hm => (h.minted m hm).snoc
  cases l with
  | spawn q =>
    simp only [System.next,Option.some.injEq] at hn
    subst hn
    refine ⟨fun p s hs => ?_,hminted⟩
    rcases pool_append hs with ⟨_,hold⟩ | ⟨_,rfl⟩
    · exact hknows p s hold
    · exact Request.Initial.knows hl
  | env e =>
    obtain ⟨w,hw,rfl⟩ := system.next_env hn
    refine ⟨hknows,fun m hm => hminted m ?_⟩
    cases e with
    | tables us cs ms =>
      obtain rfl := Option.some.inj hw
      exact hm
    | webhook e i h =>
      obtain rfl := Option.some.inj hw
      simpa [minted_handleWebhook] using hm
  | run p ch =>
    obtain ⟨q,q',w,hq,hs,rfl⟩ := system.next_run hn
    have hnow : Now tr (tr++[(c,.run p ch)]) p q c.world :=
      ⟨fun hc => hc.snoc,fun hin hauth => ⟨c,ch,q,by simp,hq,hin,hauth⟩⟩
    obtain ⟨hnext,hmints⟩ := Request.step_knows hs hnow (h.knows p q hq)
    refine ⟨fun p' s hs' => ?_,fun m hm => ?_⟩
    · rcases pool_set hs' with ⟨rfl,rfl⟩ | ⟨_,hold⟩
      · exact hnext
      · exact hknows p' s hold
    · rcases hmints m hm with hm | hm
      · exact hminted m hm
      · exact hm

end

/-- A room name and the users it lets in belong together, and in every run every token is for
a room and a user that its request had to check in a state that accepts them. -/
theorem livekit_tokens_sound (a b c u : RawId) (ha : isUuid a = true) (hb : isUuid b = true)
    (hc : isUuid c = true) :
    (∀ w : World, w.authorizeRoomAccess false (getDmRoomName a b) u = true ↔
      u.toLower = a.toLower ∨ u.toLower = b.toLower) ∧
    getDmRoomName a b = getDmRoomName b a ∧
    (∀ a' b', isUuid a' = true → isUuid b' = true → getDmRoomName a b = getDmRoomName a' b' →
      a = a' ∧ b = b' ∨ a = b' ∧ b = a') ∧
    (∀ w : World, w.authorizeRoomAccess false (getGroupRoomName c) u = true ↔
      ∃ m ∈ w.memberships, m.userId = Uuid.ofText u ∧ m.channelId = Uuid.ofText c ∧ m.leftAt = none) ∧
    (∀ r ∈ [getDmRoomName a b,getGroupRoomName c],
      ROOM_NAME_RE.test r.toList = true ∧ LivekitTokenDto.valid ⟨r,none⟩ = true) ∧
    (∀ (w : World) r, (¬ ∃ x y, isUuid x = true ∧ isUuid y = true ∧ r.toLower = ("dm-"++x++"-"++y).toLower) →
      (¬ ∃ x, isUuid x = true ∧ r.toLower = (getGroupRoomName x).toLower) → w.authorizeRoomAccess false r u = false) ∧
    ∀ w₀ tr d, w₀.minted = [] → Trace system Arriving ⟨w₀,[]⟩ tr d → ∀ m ∈ d.world.minted, m.Sound tr := by
  refine ⟨fun w => authorize_dm ha hb,getDmRoomName_comm a b,?_,?_,?_,?_,?_⟩
  · exact fun a' b' ha' hb' he => getDmRoomName_injective ha hb ha' hb' he
  · intro w
    simp [authorize_group hc,World.isActiveMember,and_assoc]
  · intro r hr
    rcases List.mem_pair.mp hr with rfl | rfl
    · simpa [LivekitTokenDto.valid] using gates_dm ha hb
    · simpa [LivekitTokenDto.valid] using gates_group hc
  · intro w r hdm hgroup
    rw [← Bool.not_eq_true]
    intro hauth
    rcases authorize_form hauth with hform | hform
    · exact hdm hform
    · exact hgroup hform
  · intro w₀ tr d h₀ htr
    have hstart : TokensSound [] ⟨w₀,[]⟩ := ⟨by simp,by simp [h₀]⟩
    have hsound : TokensSound tr d := by
      refine htr.invariant hstart ?_
      intro tr c l d hc hl hn
      exact hc.next hl hn
    exact hsound.minted

/-! ### A group call -/

def ann : SocketUser := ⟨"00000000-0000-4000-8000-00000000000a","ann"⟩

def bea : SocketUser := ⟨"00000000-0000-4000-8000-00000000000b","bea"⟩

def choirId : RawId := "00000000-0000-4000-8000-0000000000cc"

/-- A channel with two members. -/
def choir : World where
  isConfigured := true
  users := [⟨Uuid.ofText ann.id,ann.username⟩,⟨Uuid.ofText bea.id,bea.username⟩]
  channels := [Uuid.ofText choirId]
  memberships := [⟨Uuid.ofText ann.id,Uuid.ofText choirId,none⟩,⟨Uuid.ofText bea.id,Uuid.ofText choirId,none⟩]
  callLogs := []
  participants := []
  minted := []
  emitted := []

/-- Nothing fails. -/
def smooth : Choice := ⟨false,true,false,⟨0,0⟩,⟨1,1⟩⟩

def arriving (_ : Config World Request) : Label Request Choice Env → Bool
  | .spawn (.group (.request user _ _)) => isUuid user.id
  | .spawn _ => false
  | _ => true

theorem arriving_sound (c : Config World Request) (l : Label Request Choice Env) (h : arriving c l = true) :
    Arriving c l := by
  cases l with
  | spawn q =>
    cases q with
    | group q => cases q <;> first | exact .inr (.inl ⟨_,_,_,h,rfl⟩) | simp [arriving] at h
    | _ => simp [arriving] at h
  | _ => trivial

/-- The creator of the call and the invited member receive a token. -/
theorem livekit_tokens_sound_choir :
    isUuid ann.id = true ∧ isUuid bea.id = true ∧ isUuid choirId = true ∧
      getDmRoomName ann.id bea.id = getDmRoomName bea.id ann.id ∧
      choir.authorizeRoomAccess false (getGroupRoomName choirId) bea.id = true ∧
      ∃ tr d, Trace system Arriving ⟨choir,[]⟩ tr d ∧ d.world.minted.map (·.token) =
        [⟨getGroupRoomName choirId,ann.id,"ann"⟩,⟨getGroupRoomName choirId,bea.id,"bea"⟩] ∧
        ∀ m ∈ d.world.minted, m.Sound tr := by
  have hids : isUuid ann.id = true ∧ isUuid bea.id = true ∧ isUuid choirId = true := by decide +kernel
  obtain ⟨hann,hbea,hchoir⟩ := hids
  obtain ⟨d,hd,hf⟩ := Run.exists_of_exec (S := system) (c := ⟨choir,[]⟩) arriving_sound
    (.spawn (.group (.request ann [bea.id] (some choirId)))::List.replicate 9 (.run 0 smooth))
    (f := fun d => d.world.minted.map (·.token))
    (v := [⟨getGroupRoomName choirId,ann.id,"ann"⟩,⟨getGroupRoomName choirId,bea.id,"bea"⟩]) (by decide +kernel)
  obtain ⟨tr,htr⟩ := Trace.of_run hd
  obtain ⟨_,hcomm,_,hgroup,_,_,hrun⟩ := livekit_tokens_sound ann.id bea.id choirId bea.id hann hbea hchoir
  refine ⟨hann,hbea,hchoir,hcomm,?_,tr,d,htr,hf,hrun choir tr d rfl htr⟩
  exact (hgroup choir).mpr ⟨_,List.mem_cons_of_mem _ List.mem_cons_self,rfl,rfl,rfl⟩

end LiveKit

end ZevraServer
