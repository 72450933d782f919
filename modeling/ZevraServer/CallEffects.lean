import ZevraServer.CallRooms

/-!
# What an event does to the calls

Events handled one at a time, and what each of them does to the keys and the tables between
two orderly states.
-/

namespace ZevraServer

namespace Calls

/-! ### Events -/

inductive Request
  | invite (user : SocketUser) (targetUserId : RawId)
  | initiate (user : SocketUser) (targetUserIds : List RawId) (channelId : Option RawId)
  | accept (user : SocketUser) (callId : String)
  | reject (user : SocketUser) (callId : String)
  | hangup (user : SocketUser) (callId : String)
  | disconnect (user : SocketUser)
  deriving DecidableEq, Repr

/-- An event with what its handler finds, or what happens between two events. -/
inductive Happening
  | request (e : Setting) (r : Request)
  | expire (callId : String)
  | presence (userId : RawId) (online : Bool)
  | tick (ms : ℕ)
  deriving DecidableEq, Repr

namespace World

variable (w : World)

def handle (e : Setting) : Request → World × Reply
  | .invite user t => w.handleInvite e user t
  | .initiate user ts c => w.handleInitiate e user ts c
  | .accept user callId => w.handleAccept user callId
  | .reject user callId => w.handleReject e user callId
  | .hangup user callId => w.handleHangup e user callId
  | .disconnect user => w.handleDisconnect e user

def next : Happening → World
  | .request e r => (w.handle e r).1
  | .expire callId => w.expireCall callId
  | .presence u b => w.setPresence u b
  | .tick ms => w.tick ms

/-- The drawn ids are new and not empty. -/
def Fresh : Happening → Prop
  | .request e _ => e.callId ∉ w.drawn ∧ e.logId ≠ ""
  | _ => True

/-- The call that an accept or a reject finds. -/
def answered? : Happening → Option ActiveCall
  | .request _ (.accept user callId) =>
    if isUuid callId then (w.findCall user callId).filter (·.targetId = user.id) else none
  | .request _ (.reject user callId) => if isUuid callId then w.findCall user callId else none
  | _ => none

/-- Only a ringing call is accepted or rejected. -/
def Calm (h : Happening) : Prop := ∀ call, w.answered? h = some call → call.status = .ringing

def log? (id : String) : Option CallLog := w.callLogs.find? (·.id = id)

def participantsOf (id : String) : List Participant := w.participants.filter (·.callLogId = id)

end World

/-- The tables of the calls and the clock are as in `w`. -/
structure World.SameTables (w w' : World) : Prop where
  users : w'.users = w.users
  callLogs : w'.callLogs = w.callLogs
  participants : w'.participants = w.participants
  now : w'.now = w.now

section

variable {w w' w'' : World}

theorem World.SameTables.rfl : w.SameTables w := ⟨Eq.refl _,Eq.refl _,Eq.refl _,Eq.refl _⟩

theorem World.SameTables.trans (h : w.SameTables w') (h' : w'.SameTables w'') : w.SameTables w'' :=
  ⟨h'.users.trans h.users,h'.callLogs.trans h.callLogs,h'.participants.trans h.participants,
    h'.now.trans h.now⟩

theorem World.SameTables.emit {cause target : RawId} {callId : String} {event : Event} :
    w.SameTables (w.emit cause target callId event) :=
  ⟨Eq.refl _,Eq.refl _,Eq.refl _,Eq.refl _⟩

theorem World.SameTables.announce {user : SocketUser} {d : Dialling} {t : RawId} {callId : String} :
    w.SameTables (w.announce user d t callId) := by
  cases d <;> exact ⟨Eq.refl _,Eq.refl _,Eq.refl _,Eq.refl _⟩

theorem World.SameTables.createCall {callId id : String} {a b : RawId} :
    w.SameTables (w.createCall callId a b id) :=
  ⟨Eq.refl _,Eq.refl _,Eq.refl _,Eq.refl _⟩

theorem World.SameTables.delUserCall {u : RawId} : w.SameTables (w.delUserCall u) := by
  unfold World.delUserCall
  split <;> exact ⟨Eq.refl _,Eq.refl _,Eq.refl _,Eq.refl _⟩

theorem World.SameTables.cleanup {callId : String} {data : Option Hash} :
    w.SameTables (w.cleanup callId data) := by
  unfold World.cleanup
  have hroom : w.SameTables (w.delRoom callId) :=
    ⟨Eq.refl _,Eq.refl _,Eq.refl _,Eq.refl _⟩
  split
  · exact hroom
  · exact (hroom.trans .delUserCall).trans .delUserCall

theorem World.SameTables.updateCallLog {id : String} {f : CallLog → CallLog} (h : w.SameTables w') :
    (w.updateCallLog id f).SameTables (w'.updateCallLog id f) :=
  ⟨h.users,by simp only [World.updateCallLog,h.callLogs],h.participants,h.now⟩

theorem World.SameTables.insertParticipant {p : Participant} (h : w.SameTables w') :
    (w.insertParticipant p).SameTables (w'.insertParticipant p) := by
  unfold World.insertParticipant
  rw [h.participants]
  split
  · exact h
  · exact ⟨h.users,h.callLogs,Eq.refl _,h.now⟩

theorem World.SameKeys.cleanup {callId : String} {data : Option Hash} (h : w.SameKeys w') :
    (w.cleanup callId data).SameKeys (w'.cleanup callId data) := by
  refine ⟨?_,?_,?_⟩
  · simp only [World.room_cleanup,World.delRoom,h.room]
  · funext u
    simp only [World.userCall_cleanup,h.userCall]
  · simp only [World.drawn_cleanup,h.drawn]

end

/-! ### Effects -/

namespace World

variable (w : World)

/-- The call a room shows. -/
def asActive (callId : String) (h : Hash) (p : Parties) : ActiveCall :=
  ⟨callId,p.initiatorId,p.targetId,h.status,h.startedAt,some p.callLogId⟩

/-- The tables after `endCallLog`. -/
def recorded (call : ActiveCall) (id : String) : World :=
  let names := w.usernames [call.initiatorId,call.targetId]
  ((w.closeCallLog id call.startedAt w.now).insertParticipant
      (participantRow call id w.now names call.initiatorId)).insertParticipant
    (participantRow call id w.now names call.targetId)

/-- What is known of a live room. -/
structure LiveCall (callId : String) (h : Hash) (p : Parties) : Prop where
  parties : h.parties = some p
  drawn : callId ∈ w.drawn
  users : ∀ u ∈ p.users, w.isUser u
  distinct : p.initiatorId ≠ p.targetId
  named : p.callLogId ≠ ""
  log : ∃ l, w.log? p.callLogId = some l ∧
    l.status = match h.status with
      | .ringing => .missed
      | .connected => .completed
  fresh : ∀ q ∈ w.participants, q.callLogId ≠ p.callLogId
  started : h.startedAt ≤ w.now

/-- The state between two events. -/
structure Orderly : Prop where
  users : ∀ u ∈ w.users, u.id ≠ ""
  participants : ∀ q ∈ w.participants, (w.log? q.callLogId).isSome
  live : ∀ c h, w.room c = some h → ∃ p, w.LiveCall c h p
  keys : ∀ u c, w.userCall u = some c → ∃ p, w.parties? c = some p ∧ u ∈ p.users
  oneCall : w.OneCall
  logs : ∀ c c' p p', w.parties? c = some p → w.parties? c' = some p' → p.callLogId = p'.callLogId → c = c'

end World

section

variable {w : World} {u : RawId} {c : String} {h : Hash} {p : Parties}

theorem World.Orderly.ne_empty (ho : w.Orderly) (hu : w.isUser u) : u ≠ "" := by
  obtain ⟨v,hv,he⟩ := List.any_eq_true.mp hu
  have hid : v.id = u := by simpa using he
  rw [← hid]
  exact ho.users v hv

theorem World.LiveCall.parties? (hl : w.LiveCall c h p) (hr : w.room c = some h) : w.parties? c = some p := by
  simp [World.parties?,hr,hl.parties]

theorem World.Orderly.liveCall (ho : w.Orderly) (hp : w.parties? c = some p) :
    ∃ h, w.room c = some h ∧ w.LiveCall c h p := by
  obtain ⟨h,hr,hh⟩ := Option.bind_eq_some_iff.mp hp
  obtain ⟨p',hl⟩ := ho.live c h hr
  obtain rfl := Option.some.inj (hh.symm.trans hl.parties)
  exact ⟨h,hr,hl⟩

theorem World.Orderly.toActiveCall (ho : w.Orderly) (hr : w.room c = some h) (hl : w.LiveCall c h p) :
    toActiveCall c (w.room c) = some (World.asActive c h p) := by
  have hi : p.initiatorId ≠ "" := ho.ne_empty (hl.users _ (by simp [Parties.users]))
  simp [Calls.toActiveCall,hr,hl.parties,hi,hl.named,World.asActive]

/-- The key of a user names the live room the user is in. -/
theorem World.Orderly.getActiveCall (ho : w.Orderly) {call : ActiveCall} (hc : w.getActiveCall u = some call) :
    ∃ c h p, w.userCall u = some c ∧ w.room c = some h ∧ w.LiveCall c h p ∧ u ∈ p.users ∧
      call = World.asActive c h p := by
  obtain ⟨c,hk,ha⟩ := Option.bind_eq_some_iff.mp hc
  obtain ⟨p,hp,hu⟩ := ho.keys u c hk
  obtain ⟨h,hr,hl⟩ := ho.liveCall hp
  rw [ho.toActiveCall hr hl] at ha
  exact ⟨c,h,p,hk,hr,hl,hu,(Option.some.inj ha).symm⟩

/-- A user without an active call is in no live room. -/
theorem World.Orderly.not_busy (ho : w.Orderly) (hc : w.getActiveCall u = none) (c : String) : ¬ w.Busy u c := by
  rintro ⟨c',p,_,hp,hu⟩
  obtain ⟨h,hr,hl⟩ := ho.liveCall hp
  have hk := ho.oneCall.keys c' p hp u hu
  simp [World.getActiveCall,hk,ho.toActiveCall hr hl] at hc

end

/-- What an event does between two orderly states. -/
inductive Effect (e : Setting) (w : World) : Request → World → Prop
  | none {r w'} : w.SameKeys w' → w.SameTables w' → Effect e w r w'
  | rang {r u t ch v w'} : w.getActiveCall u = none → w.getActiveCall t = none → u ≠ t →
      w.createCallLog e.logId u t ch = some v →
      (w.createCall e.callId u t e.logId).SameKeys w' → v.SameTables w' → Effect e w r w'
  | accepted {user c h p w'} : w.room c = some h → w.LiveCall c h p →
      w.answered? (.request e (.accept user c)) = some (World.asActive c h p) →
      (w.acceptCall (World.asActive c h p)).SameKeys w' →
      (w.updateCallLogAccepted p.callLogId).SameTables w' → Effect e w (.accept user c) w'
  | rejected {user c h p w'} : w.room c = some h → w.LiveCall c h p →
      w.answered? (.request e (.reject user c)) = some (World.asActive c h p) →
      (w.cleanupCall c).SameKeys w' →
      (w.updateCallLogRejected p.callLogId).SameTables w' → Effect e w (.reject user c) w'
  | dropped {r c h p w'} : w.room c = some h → w.LiveCall c h p → h.status = .ringing →
      (w.cleanupCall c).SameKeys w' → w.SameTables w' → Effect e w r w'
  | finished {r c h p w'} : w.room c = some h → w.LiveCall c h p → h.status = .connected →
      (w.cleanupCall c).SameKeys w' →
      (w.recorded (World.asActive c h p) p.callLogId).SameTables w' → Effect e w r w'

section

variable {w : World} {e : Setting} {user : SocketUser} {c : String} {h : Hash} {p : Parties}

theorem dial_effect {r : Request} (d : Dialling) : Effect e w r (w.dial e user d).1 := by
  unfold World.dial
  split
  · exact .none .rfl .rfl
  · rename_i hvalid
    split
    · exact .none .rfl .rfl
    · split
      · exact .none .rfl .rfl
      · rename_i hown
        unfold World.ring
        split
        · exact .none .rfl .rfl
        · rename_i t ht
          split
          · exact .none .rfl .rfl
          · rename_i htarget
            split
            · exact .none .rfl .rfl
            · split
              · exact .none .rfl .rfl
              · rename_i v hv
                have hne : user.id ≠ t := by
                  rintro rfl
                  cases d with
                  | invite t' =>
                    obtain rfl := Option.some.inj ht
                    simp [Dialling.invalid?] at hvalid
                  | initiate ts ch => simp [Dialling.target?,Option.filter_eq_some_iff] at ht
                have hkeys : (w.createCall e.callId user.id t e.logId).SameKeys
                    (v.createCall e.callId user.id t e.logId) := by
                  have hsame := World.SameKeys.createCallLog hv
                  have hnow : v.now = w.now := by
                    unfold World.createCallLog at hv
                    split at hv
                    · obtain rfl := Option.some.inj hv
                      rfl
                    · simp at hv
                  exact ⟨by simp only [World.createCall,hsame.room,hnow],
                    by simp only [World.createCall,hsame.userCall],
                    by simp only [World.createCall,hsame.drawn]⟩
                exact .rang (by simpa using hown) (by simpa using htarget) hne hv
                  (hkeys.trans .announce) (World.SameTables.createCall.trans .announce)

theorem World.Orderly.findCall (ho : w.Orderly) {call : ActiveCall} (hc : w.findCall user c = some call) :
    ∃ h p, w.room c = some h ∧ w.LiveCall c h p ∧ call = World.asActive c h p := by
  obtain ⟨hc,he⟩ := Option.filter_eq_some_iff.mp hc
  obtain ⟨c',h,p,_,hr,hl,_,rfl⟩ := ho.getActiveCall hc
  obtain rfl : c' = c := of_decide_eq_true he
  exact ⟨h,p,hr,hl,rfl⟩

theorem accept_effect (ho : w.Orderly) : Effect e w (.accept user c) (w.handleAccept user c).1 := by
  unfold World.handleAccept
  split
  · exact .none .rfl .rfl
  · rename_i huuid
    split
    · exact .none .rfl .rfl
    · rename_i call hc
      obtain ⟨h,p,hr,hl,rfl⟩ := ho.findCall (Option.filter_eq_some_iff.mp hc).1
      have hans : w.answered? (.request e (.accept user c)) = some (World.asActive c h p) := by
        simpa [World.answered?,show isUuid c = true by simpa using huuid] using hc
      exact .accepted hr hl hans ⟨rfl,rfl,rfl⟩ ⟨rfl,rfl,rfl,rfl⟩

theorem reject_effect (ho : w.Orderly) : Effect e w (.reject user c) (w.handleReject e user c).1 := by
  unfold World.handleReject
  split
  · exact .none .rfl .rfl
  · rename_i huuid
    split
    · exact .none .rfl .rfl
    · rename_i call hc
      obtain ⟨h,p,hr,hl,rfl⟩ := ho.findCall hc
      have hans : w.answered? (.request e (.reject user c)) = some (World.asActive c h p) := by
        simpa [World.answered?,show isUuid c = true by simpa using huuid] using hc
      have hkeys : w.SameKeys (w.updateCallLogRejected p.callLogId) := ⟨rfl,rfl,rfl⟩
      exact .rejected hr hl hans hkeys.cleanup.emit (World.SameTables.cleanup.trans .emit)

/-- `endCallLog` of a live call does not throw. -/
theorem World.LiveCall.endCallLog (hl : w.LiveCall c h p) :
    w.endCallLog (World.asActive c h p) p.callLogId = (w.recorded (World.asActive c h p) p.callLogId,true) := by
  obtain ⟨l,hlog,_⟩ := hl.log
  have hid := List.find?_some hlog
  have hmem := List.mem_of_find?_eq_some hlog
  have hi := hl.users p.initiatorId (by simp [Parties.users])
  have ht := hl.users p.targetId (by simp [Parties.users])
  have hexists : ∃ k ∈ (w.closeCallLog p.callLogId h.startedAt w.now).callLogs, k.id = p.callLogId := by
    refine ⟨_,List.mem_map_of_mem hmem,?_⟩
    have heq : l.id = p.callLogId := by simpa using hid
    simp [heq]
  have hcond : (w.closeCallLog p.callLogId h.startedAt w.now).isUser p.initiatorId ∧
      (w.closeCallLog p.callLogId h.startedAt w.now).isUser p.targetId ∧
      ∃ k ∈ (w.closeCallLog p.callLogId h.startedAt w.now).callLogs, k.id = p.callLogId := ⟨hi,ht,hexists⟩
  have hins : (w.closeCallLog p.callLogId h.startedAt w.now).insertParticipants (World.asActive c h p)
      p.callLogId w.now (w.usernames [p.initiatorId,p.targetId]) =
      some (w.recorded (World.asActive c h p) p.callLogId) := if_pos hcond
  have hins' : (w.closeCallLog p.callLogId (World.asActive c h p).startedAt w.now).insertParticipants
      (World.asActive c h p) p.callLogId
      (w.closeCallLog p.callLogId (World.asActive c h p).startedAt w.now).now
      (w.usernames [(World.asActive c h p).initiatorId,(World.asActive c h p).targetId]) =
      some (w.recorded (World.asActive c h p) p.callLogId) := hins
  simp only [World.endCallLog]
  rw [hins']

theorem World.LiveCall.congr {v : World} (hl : w.LiveCall c h p) (hdrawn : v.drawn = w.drawn)
    (ht : w.SameTables v) : v.LiveCall c h p where
  parties := hl.parties
  drawn := hdrawn ▸ hl.drawn
  users := by simpa only [World.isUser,ht.users] using hl.users
  distinct := hl.distinct
  named := hl.named
  log := by simpa only [World.log?,ht.callLogs] using hl.log
  fresh := by simpa only [ht.participants] using hl.fresh
  started := ht.now ▸ hl.started

theorem World.SameTables.recorded {v : World} {call : ActiveCall} {id : String} (ht : w.SameTables v) :
    (w.recorded call id).SameTables (v.recorded call id) := by
  simp only [World.recorded,World.usernames,ht.users,ht.now]
  exact ht.updateCallLog.insertParticipant.insertParticipant

theorem World.recorded_sameKeys {call : ActiveCall} {id : String} : w.SameKeys (w.recorded call id) := by
  have hclose : w.SameKeys (w.closeCallLog id call.startedAt w.now) := ⟨rfl,rfl,rfl⟩
  exact (hclose.trans .insertParticipant).trans .insertParticipant

theorem World.LiveCall.finishConnectedCall (hl : w.LiveCall c h p) :
    w.finishConnectedCall e (World.asActive c h p) = (w.recorded (World.asActive c h p) p.callLogId,true) :=
  hl.endCallLog

theorem World.SameKeys.cleanupCall {v : World} (hs : w.SameKeys v) :
    (w.cleanupCall c).SameKeys (v.cleanupCall c) := by
  unfold World.cleanupCall
  rw [hs.room]
  exact hs.cleanup

theorem hangup_effect (ho : w.Orderly) : Effect e w (.hangup user c) (w.handleHangup e user c).1 := by
  unfold World.handleHangup
  split
  · exact .none .rfl .rfl
  · split
    · exact .none .rfl .rfl
    · rename_i call hc
      obtain ⟨h,p,hr,hl,rfl⟩ := ho.findCall hc
      cases hs : h.status with
      | ringing =>
        have hstatus : (World.asActive c h p).status = .ringing := hs
        simp only [hstatus,reduceCtorEq,if_false,if_true]
        exact .dropped hr hl hs (World.SameKeys.rfl.emit) (World.SameTables.cleanup.trans .emit)
      | connected =>
        have hstatus : (World.asActive c h p).status = .connected := hs
        simp only [hstatus,if_true,hl.finishConnectedCall]
        exact .finished hr hl hs World.recorded_sameKeys.cleanupCall.emit (World.SameTables.cleanup.trans .emit)

theorem disconnect_effect (ho : w.Orderly) : Effect e w (.disconnect user) (w.handleDisconnect e user).1 := by
  unfold World.handleDisconnect
  split
  · exact .none .rfl .rfl
  · split
    · exact .none .rfl .rfl
    · rename_i c hk
      obtain ⟨p,hp,_⟩ := ho.keys user.id c hk
      obtain ⟨h,hr,hl⟩ := ho.liveCall hp
      simp only [ho.toActiveCall hr hl]
      have hcleaned : w.SameTables (w.cleanupCall c) := .cleanup
      have hl' : (w.cleanupCall c).LiveCall c h p := hl.congr World.drawn_cleanup hcleaned
      cases hs : h.status with
      | ringing =>
        have hstatus : (World.asActive c h p).status = .ringing := hs
        simp only [hstatus,reduceCtorEq,if_false]
        exact .dropped hr hl hs (World.SameKeys.rfl.emit) (hcleaned.trans .emit)
      | connected =>
        have hstatus : (World.asActive c h p).status = .connected := hs
        simp only [hstatus,if_true,hl'.finishConnectedCall]
        exact .finished hr hl hs World.recorded_sameKeys.emit (hcleaned.recorded.trans .emit)

theorem handle_effect (ho : w.Orderly) (e : Setting) (r : Request) : Effect e w r (w.handle e r).1 := by
  cases r with
  | invite user t => exact dial_effect _
  | initiate user ts ch => exact dial_effect _
  | accept user c => exact accept_effect ho
  | reject user c => exact reject_effect ho
  | hangup user c => exact hangup_effect ho
  | disconnect user => exact disconnect_effect ho

end

end Calls

end ZevraServer
