import ZevraServer.CallLife

/-!
# Handlers that run alone

A handler whose statements follow each other without interruption and without failure does
what the function of its name does. So the sequences of events are runs of the system.
-/

namespace ZevraServer

namespace Calls

open Interleaving

/-- The control state in which an event arrives. -/
def Request.call : Request → Call
  | .invite user t => .dial (.request user (.invite t))
  | .initiate user ts c => .dial (.request user (.initiate ts c))
  | .accept user callId => .accept (.request user callId)
  | .reject user callId => .reject (.request user callId)
  | .hangup user callId => .hangup (.request user callId)
  | .disconnect user => .disconnect (.sockets user)

/-- The last control state of a handler with its reply. -/
def Request.answered (r : Reply) : Request → Call
  | .invite _ _ => .dial (.done r)
  | .initiate _ _ _ => .dial (.done r)
  | .accept _ _ => .accept (.done r)
  | .reject _ _ => .reject (.done r)
  | .hangup _ _ => .hangup (.done r)
  | .disconnect _ => .disconnect .done

def Setting.choice (e : Setting) : Choice := ⟨false,e⟩

/-- A handler that runs alone from `q` ends in `q'`. -/
abbrev Alone (p : ℕ) (e : Setting) : Call → World → Call → World → Prop :=
  Completes system p e.choice

/-! What a handler does with the result of a helper. -/

def Dial.ownFound (user : SocketUser) (d : Dialling) (r : Option ActiveCall) : Call :=
  .dial <|
    match r with
    | some _ => .done alreadyInCall
    | none =>
      match d.target? user.id with
      | none => .done noTarget
      | some t => .target user d t (.key t)

def Dial.targetFound (user : SocketUser) (d : Dialling) (t : RawId) (r : Option ActiveCall) : Call :=
  .dial <|
    match r with
    | some _ => .done targetBusy
    | none => .online user d t

def Accept.found (user : SocketUser) (callId : String) (r : Option ActiveCall) : Call :=
  .accept <|
    match (r.filter (·.callId = callId)).filter (·.targetId = user.id) with
    | none => .done callNotFound
    | some call => .write user call

def Reject.found (user : SocketUser) (callId : String) (r : Option ActiveCall) : Call :=
  .reject <|
    match r.filter (·.callId = callId) with
    | none => .done callNotFound
    | some call =>
      match call.callLogId with
      | some id => .log user call id
      | none => .create user call

def Hangup.found (user : SocketUser) (callId : String) (r : Option ActiveCall) : Call :=
  .hangup <|
    match r.filter (·.callId = callId) with
    | none => .done callNotFound
    | some call =>
      if call.status = .connected then .finish user call (.start call)
      else .cleanup user call (.read call.callId)

def Disconnect.cleaned (user : SocketUser) (r : Option ActiveCall) (w : World) : Call × World :=
  match r with
  | none => (.disconnect .done,w)
  | some call =>
    if call.status = .connected then (.disconnect (.finish user call (.start call)),w)
    else (.disconnect .done,w.emit user.id (call.getOtherUserId user.id) call.callId
      (.hangup (some "caller_disconnected")))

section

variable {p : ℕ} {e : Setting} {w w' : World} {q' : Call}

theorem alone_done {q : Call} (h : q.step e.choice w = none) : Alone p e q w q w := .stop h

theorem Alone.then {q q₁ : Call} {w₁ : World} (h : q.step e.choice w = some (q₁,w₁))
    (hrest : Alone p e q₁ w₁ q' w') : Alone p e q w q' w' := .step h hrest

theorem Alone.next {q : Call} (q₁ : Call) (w₁ : World) (h : q.step e.choice w = some (q₁,w₁))
    (hrest : Alone p e q₁ w₁ q' w') : Alone p e q w q' w' := .step h hrest

/-- `getActiveCall` within a handler. -/
theorem alone_lookup {f : Lookup → Call} {g : Option ActiveCall → Call} {u : RawId}
    (hf : ∀ s, (f s).step e.choice w = match s.step e.choice w with
      | .more s => some (f s,w)
      | .result r => some (g r,w))
    (hrest : Alone p e (g (w.getActiveCall u)) w q' w') : Alone p e (f (.key u)) w q' w' := by
  cases hk : w.userCall u with
  | none =>
    have hcall : w.getActiveCall u = none := by simp [World.getActiveCall,hk]
    rw [hcall] at hrest
    exact .then (by rw [hf]; simp [Lookup.step,hk,Setting.choice]) hrest
  | some c =>
    have hcall : w.getActiveCall u = toActiveCall c (w.room c) := by simp [World.getActiveCall,hk]
    rw [hcall] at hrest
    have hroom : (f (.room c)).step e.choice w = some (g (toActiveCall c (w.room c)),w) := by
      rw [hf]
      simp [Lookup.step,Setting.choice]
    exact .then (by rw [hf]; simp [Lookup.step,hk,Setting.choice]) (.then hroom hrest)

/-- `cleanupCall` within a handler. -/
theorem alone_cleanup {f : Cleanup → Call} {g : Option ActiveCall → World → Call × World} {c : String}
    (hf : ∀ s, (f s).step e.choice w = match s.step e.choice w with
      | (.more s,w) => some (f s,w)
      | (.result r,w) => some (g r w))
    (hrest : Alone p e (g (toActiveCall c (w.room c)) (w.cleanupCall c)).1
      (g (toActiveCall c (w.room c)) (w.cleanupCall c)).2 q' w') : Alone p e (f (.read c)) w q' w' := by
  have hread : (f (.read c)).step e.choice w = some (f (.write c (w.room c)),w) := by
    rw [hf]
    simp [Cleanup.step,Setting.choice]
  have hwrite : (f (.write c (w.room c))).step e.choice w =
      some (g (toActiveCall c (w.room c)) (w.cleanupCall c)) := by
    rw [hf]
    simp [Cleanup.step,Setting.choice,World.cleanupCall]
  exact .then hread (.then hwrite hrest)

/-- `finishConnectedCall` within a handler. -/
theorem alone_finish {f : Finish → Call} {g : Bool → World → Call × World} {call : ActiveCall}
    (hf : ∀ s w, (f s).step e.choice w = match s.step e.choice w with
      | (.more s,w) => some (f s,w)
      | (.result r,w) => some (g r w))
    (hrest : Alone p e (g (w.finishConnectedCall e call).2 (w.finishConnectedCall e call).1).1
      (g (w.finishConnectedCall e call).2 (w.finishConnectedCall e call).1).2 q' w') :
    Alone p e (f (.start call)) w q' w' := by
  have hnamed : ∀ {v : World} {id : String}, Alone p e (g (v.endCallLog call id).2 (v.endCallLog call id).1).1
      (g (v.endCallLog call id).2 (v.endCallLog call id).1).2 q' w' → Alone p e (f (.names call id)) v q' w' := by
    intro v id hend
    let found := v.usernames [call.initiatorId,call.targetId]
    have hnames : (f (.names call id)).step e.choice v = some (f (.close call id v.now found),v) := by
      rw [hf]
      simp [Finish.step,Setting.choice,found]
    have hclose : (f (.close call id v.now found)).step e.choice v =
        some (f (.participants call id v.now found),v.closeCallLog id call.startedAt v.now) := by
      rw [hf]
      simp [Finish.step,Setting.choice]
    refine .then hnames (.then hclose ?_)
    cases hi : (v.closeCallLog id call.startedAt v.now).insertParticipants call id v.now found with
    | none =>
      have hlog : v.endCallLog call id = (v.closeCallLog id call.startedAt v.now,false) := by
        simp only [World.endCallLog]
        have hi' : (v.closeCallLog id call.startedAt v.now).insertParticipants call id
            (v.closeCallLog id call.startedAt v.now).now (v.usernames [call.initiatorId,call.targetId]) = none := hi
        rw [hi']
      rw [hlog] at hend
      exact .then (by rw [hf]; simp [Finish.step,Setting.choice,hi]) hend
    | some v' =>
      have hlog : v.endCallLog call id = (v',true) := by
        simp only [World.endCallLog]
        have hi' : (v.closeCallLog id call.startedAt v.now).insertParticipants call id
            (v.closeCallLog id call.startedAt v.now).now (v.usernames [call.initiatorId,call.targetId]) = some v' := hi
        rw [hi']
      rw [hlog] at hend
      exact .then (by rw [hf]; simp [Finish.step,Setting.choice,hi]) hend
  cases hid : call.callLogId with
  | some id =>
    have hstart : Finish.start call = .names call id := by simp [Finish.start,hid]
    have hlog : w.finishConnectedCall e call = w.endCallLog call id := by
      simp [World.finishConnectedCall,World.callLogOf,hid]
    rw [hlog] at hrest
    rw [hstart]
    exact hnamed hrest
  | none =>
    have hstart : Finish.start call = .create call := by simp [Finish.start,hid]
    rw [hstart]
    cases hl : w.createCallLog e.logId call.initiatorId call.targetId none with
    | none =>
      have hlog : w.finishConnectedCall e call = (w,false) := by
        simp [World.finishConnectedCall,World.callLogOf,hid,hl]
      rw [hlog] at hrest
      exact .then (by rw [hf]; simp [Finish.step,Setting.choice,hl]) hrest
    | some v =>
      have hlog : w.finishConnectedCall e call = v.endCallLog call e.logId := by
        simp [World.finishConnectedCall,World.callLogOf,hid,hl]
      rw [hlog] at hrest
      exact .then (by rw [hf]; simp [Finish.step,Setting.choice,hl]) (hnamed hrest)

theorem Dial.alone (user : SocketUser) (d : Dialling) : Alone p e (.dial (.request user d)) w
    (.dial (.done (w.dial e user d).2)) (w.dial e user d).1 := by
  have hdone : ∀ {r v}, Alone p e (.dial (.done r)) v (.dial (.done r)) v := fun {_ _} => alone_done rfl
  cases hv : d.invalid? user.id with
  | some r =>
    have hdial : w.dial e user d = (w,r) := by simp [World.dial,hv]
    rw [hdial]
    exact .then (by simp [Call.step,Dial.step,hv]) hdone
  | none =>
    cases ha : e.allowed with
    | false =>
      have hdial : w.dial e user d = (w,tooMany) := by simp [World.dial,hv,ha]
      rw [hdial]
      exact .then (by simp [Call.step,Dial.step,hv,ha,Setting.choice]) hdone
    | true =>
      refine .next (.dial (.own user d (.key user.id))) w
        (by simp [Call.step,Dial.step,hv,ha,Setting.choice]) ?_
      refine alone_lookup (f := fun s => .dial (.own user d s)) (g := Dial.ownFound user d) ?_ ?_
      · intro s
        simp only [Call.step,Dial.step,Dial.ownFound]
        cases s.step e.choice w with
        | more s => rfl
        | result r =>
          cases r with
          | some call => rfl
          | none => cases d.target? user.id <;> rfl
      · cases hown : w.getActiveCall user.id with
        | some call =>
          have hdial : w.dial e user d = (w,alreadyInCall) := by simp [World.dial,hv,ha,hown]
          rw [hdial]
          exact hdone
        | none =>
          have hring : w.dial e user d = w.ring e user d := by simp [World.dial,hv,ha,hown]
          rw [hring]
          cases ht : d.target? user.id with
          | none =>
            have hnone : w.ring e user d = (w,noTarget) := by simp [World.ring,ht]
            rw [hnone]
            simpa only [Dial.ownFound,ht] using hdone
          | some t =>
            simp only [Dial.ownFound,ht]
            refine alone_lookup (f := fun s => .dial (.target user d t s)) (g := Dial.targetFound user d t) ?_ ?_
            · intro s
              simp only [Call.step,Dial.step,Dial.targetFound]
              cases s.step e.choice w with
              | more s => rfl
              | result r => cases r <;> rfl
            · cases hbusy : w.getActiveCall t with
              | some call =>
                have hdial : w.ring e user d = (w,targetBusy) := by simp [World.ring,ht,hbusy]
                rw [hdial]
                exact hdone
              | none =>
                cases hon : w.online t with
                | false =>
                  have hdial : w.ring e user d = (w,d.offline) := by simp [World.ring,ht,hbusy,hon]
                  rw [hdial]
                  exact .then (by simp [Dial.targetFound,Call.step,Dial.step,hon]) hdone
                | true =>
                  refine .next (.dial (.log user d t)) w
                    (by simp [Dial.targetFound,Call.step,Dial.step,hon,Setting.choice]) ?_
                  cases hl : w.createCallLog e.logId user.id t d.channelId with
                  | none =>
                    have hdial : w.ring e user d = (w,.thrown) := by simp [World.ring,ht,hbusy,hon,hl]
                    rw [hdial]
                    exact .then (by simp [Call.step,Dial.step,hl,Setting.choice]) hdone
                  | some v =>
                    have hdial : w.ring e user d = ((v.createCall e.callId user.id t e.logId).announce user d t
                        e.callId,.call e.callId e.logId) := by simp [World.ring,ht,hbusy,hon,hl]
                    rw [hdial]
                    refine .next (.dial (.create user d t e.logId)) v
                      (by simp [Call.step,Dial.step,hl,Setting.choice]) ?_
                    cases d with
                    | invite t' => exact .then (by simp [Call.step,Dial.step,Setting.choice]) hdone
                    | initiate ts ch =>
                      refine .next (.dial (.names user (.initiate ts ch) t e.callId e.logId))
                        (v.createCall e.callId user.id t e.logId)
                        (by simp [Call.step,Dial.step,Setting.choice]) ?_
                      exact .then (by simp [Call.step,Dial.step,Setting.choice]) hdone

theorem Accept.alone (user : SocketUser) (callId : String) : Alone p e (.accept (.request user callId)) w
    (.accept (.done (w.handleAccept user callId).2)) (w.handleAccept user callId).1 := by
  have hdone : ∀ {r v}, Alone p e (.accept (.done r)) v (.accept (.done r)) v := fun {_ _} => alone_done rfl
  cases hu : isUuid callId with
  | false =>
    have haccept : w.handleAccept user callId = (w,invalid "callId must be a valid id") := by
      simp [World.handleAccept,hu]
    rw [haccept]
    exact .then (by simp [Call.step,Accept.step,named,hu]) hdone
  | true =>
    refine .next (.accept (.find user callId (.key user.id))) w
      (by simp [Call.step,Accept.step,named,hu]) ?_
    refine alone_lookup (f := fun s => .accept (.find user callId s)) (g := Accept.found user callId) ?_ ?_
    · intro s
      simp only [Call.step,Accept.step,Accept.found]
      cases s.step e.choice w with
      | more s => rfl
      | result r =>
        dsimp only
        cases (r.filter (·.callId = callId)).filter (·.targetId = user.id) <;> rfl
    · cases hc : (w.findCall user callId).filter (·.targetId = user.id) with
      | none =>
        have haccept : w.handleAccept user callId = (w,callNotFound) := by simp [World.handleAccept,hu,hc]
        have hfound : Accept.found user callId (w.getActiveCall user.id) = .accept (.done callNotFound) := by
          simp only [World.findCall] at hc
          simp only [Accept.found,hc]
        rw [haccept,hfound]
        exact hdone
      | some call =>
        have haccept : w.handleAccept user callId =
            (((w.acceptCall call).acceptLog call).emitAccepted user call,.success) := by
          simp [World.handleAccept,hu,hc,World.emitAccepted]
        have hfound : Accept.found user callId (w.getActiveCall user.id) = .accept (.write user call) := by
          simp only [World.findCall] at hc
          simp only [Accept.found,hc]
        rw [haccept,hfound]
        cases hid : call.callLogId with
        | none =>
          exact .then (by simp [Call.step,Accept.step,Setting.choice,hid,World.acceptLog]) hdone
        | some id =>
          refine .next (.accept (.log user call id)) (w.acceptCall call)
            (by simp [Call.step,Accept.step,Setting.choice,hid]) ?_
          exact .then (by simp [Call.step,Accept.step,Setting.choice,World.acceptLog,hid]) hdone

theorem Reject.alone (user : SocketUser) (callId : String) : Alone p e (.reject (.request user callId)) w
    (.reject (.done (w.handleReject e user callId).2)) (w.handleReject e user callId).1 := by
  have hdone : ∀ {r v}, Alone p e (.reject (.done r)) v (.reject (.done r)) v := fun {_ _} => alone_done rfl
  cases hu : isUuid callId with
  | false =>
    have hreject : w.handleReject e user callId = (w,invalid "callId must be a valid id") := by
      simp [World.handleReject,hu]
    rw [hreject]
    exact .then (by simp [Call.step,Reject.step,named,hu]) hdone
  | true =>
    refine .next (.reject (.find user callId (.key user.id))) w
      (by simp [Call.step,Reject.step,named,hu]) ?_
    refine alone_lookup (f := fun s => .reject (.find user callId s)) (g := Reject.found user callId) ?_ ?_
    · intro s
      simp only [Call.step,Reject.step,Reject.found]
      cases s.step e.choice w with
      | more s => rfl
      | result r =>
        dsimp only
        cases r.filter (·.callId = callId) with
        | none => rfl
        | some call =>
          dsimp only
          cases call.callLogId <;> rfl
    · cases hc : w.findCall user callId with
      | none =>
        have hreject : w.handleReject e user callId = (w,callNotFound) := by simp [World.handleReject,hu,hc]
        have hfound : Reject.found user callId (w.getActiveCall user.id) = .reject (.done callNotFound) := by
          simp only [World.findCall] at hc
          simp only [Reject.found,hc]
        rw [hreject,hfound]
        exact hdone
      | some call =>
        have hlogged : ∀ {v id}, Alone p e (.reject (.log user call id)) v (.reject (.done .success))
            (((v.updateCallLogRejected id).cleanupCall call.callId).emit user.id (call.getOtherUserId user.id)
              call.callId .rejected) := by
          intro v id
          refine .next (.reject (.cleanup user call (.read call.callId)))
            (v.updateCallLogRejected id) (by simp [Call.step,Reject.step,Setting.choice]) ?_
          refine alone_cleanup (f := fun s => .reject (.cleanup user call s))
            (g := fun _ w => (.reject (.done .success),w.emit user.id (call.getOtherUserId user.id)
              call.callId .rejected)) ?_ hdone
          intro s
          simp only [Call.step,Reject.step]
          rcases s.step e.choice (v.updateCallLogRejected id) with ⟨_ | _,_⟩ <;> rfl
        cases hid : call.callLogId with
        | some id =>
          have hreject : w.handleReject e user callId = (((w.updateCallLogRejected id).cleanupCall
              call.callId).emit user.id (call.getOtherUserId user.id) call.callId .rejected,.success) := by
            simp [World.handleReject,hu,hc,World.callLogOf,hid]
          have hfound : Reject.found user callId (w.getActiveCall user.id) = .reject (.log user call id) := by
            simp only [World.findCall] at hc
            simp only [Reject.found,hc,hid]
          rw [hreject,hfound]
          exact hlogged
        | none =>
          have hfound : Reject.found user callId (w.getActiveCall user.id) = .reject (.create user call) := by
            simp only [World.findCall] at hc
            simp only [Reject.found,hc,hid]
          rw [hfound]
          cases hl : w.createCallLog e.logId call.initiatorId call.targetId none with
          | none =>
            have hreject : w.handleReject e user callId = (w,.thrown) := by
              simp [World.handleReject,hu,hc,World.callLogOf,hid,hl]
            rw [hreject]
            exact .then (by simp [Call.step,Reject.step,Setting.choice,hl]) hdone
          | some v =>
            have hreject : w.handleReject e user callId = (((v.updateCallLogRejected e.logId).cleanupCall
                call.callId).emit user.id (call.getOtherUserId user.id) call.callId .rejected,.success) := by
              simp [World.handleReject,hu,hc,World.callLogOf,hid,hl]
            rw [hreject]
            exact .then (by simp [Call.step,Reject.step,Setting.choice,hl]) hlogged

theorem Hangup.alone (user : SocketUser) (callId : String) : Alone p e (.hangup (.request user callId)) w
    (.hangup (.done (w.handleHangup e user callId).2)) (w.handleHangup e user callId).1 := by
  have hdone : ∀ {r v}, Alone p e (.hangup (.done r)) v (.hangup (.done r)) v := fun {_ _} => alone_done rfl
  cases hu : isUuid callId with
  | false =>
    have hhangup : w.handleHangup e user callId = (w,invalid "callId must be a valid id") := by
      simp [World.handleHangup,hu]
    rw [hhangup]
    exact .then (by simp [Call.step,Hangup.step,named,hu]) hdone
  | true =>
    refine .next (.hangup (.find user callId (.key user.id))) w
      (by simp [Call.step,Hangup.step,named,hu]) ?_
    refine alone_lookup (f := fun s => .hangup (.find user callId s)) (g := Hangup.found user callId) ?_ ?_
    · intro s
      simp only [Call.step,Hangup.step,Hangup.found]
      cases s.step e.choice w with
      | more s => rfl
      | result r =>
        dsimp only
        cases r.filter (·.callId = callId) with
        | none => rfl
        | some call =>
          dsimp only
          split <;> rfl
    · cases hc : w.findCall user callId with
      | none =>
        have hhangup : w.handleHangup e user callId = (w,callNotFound) := by simp [World.handleHangup,hu,hc]
        have hfound : Hangup.found user callId (w.getActiveCall user.id) = .hangup (.done callNotFound) := by
          simp only [World.findCall] at hc
          simp only [Hangup.found,hc]
        rw [hhangup,hfound]
        exact hdone
      | some call =>
        have hcleaned : ∀ {v}, Alone p e (.hangup (.cleanup user call (.read call.callId))) v
            (.hangup (.done .success)) ((v.cleanupCall call.callId).emit user.id (call.getOtherUserId user.id)
              call.callId (.hangup none)) := by
          intro v
          refine alone_cleanup (f := fun s => .hangup (.cleanup user call s))
            (g := fun _ w => (.hangup (.done .success),w.emit user.id (call.getOtherUserId user.id)
              call.callId (.hangup none))) ?_ hdone
          intro s
          simp only [Call.step,Hangup.step]
          rcases s.step e.choice v with ⟨_ | _,_⟩ <;> rfl
        by_cases hs : call.status = .connected
        · have hfound : Hangup.found user callId (w.getActiveCall user.id) = .hangup (.finish user call (.start call)) := by
            simp only [World.findCall] at hc
            simp only [Hangup.found,hc,if_pos hs]
          rw [hfound]
          refine alone_finish (f := fun s => .hangup (.finish user call s))
            (g := fun r w => if r then (.hangup (.cleanup user call (.read call.callId)),w)
              else (.hangup (.done .thrown),w)) ?_ ?_
          · intro s v
            simp only [Call.step,Hangup.step]
            rcases s.step e.choice v with ⟨_ | r,_⟩
            · rfl
            · cases r <;> rfl
          · cases hf : (w.finishConnectedCall e call).2 with
            | true =>
              have hhangup : w.handleHangup e user callId =
                  (((w.finishConnectedCall e call).1.cleanupCall call.callId).emit user.id
                    (call.getOtherUserId user.id) call.callId (.hangup none),.success) := by
                simp [World.handleHangup,hu,hc,hs,hf]
              rw [hhangup]
              exact hcleaned
            | false =>
              have hhangup : w.handleHangup e user callId = ((w.finishConnectedCall e call).1,.thrown) := by
                simp [World.handleHangup,hu,hc,hs,hf]
              rw [hhangup]
              exact hdone
        · have hfound : Hangup.found user callId (w.getActiveCall user.id) = .hangup (.cleanup user call (.read call.callId)) := by
            simp only [World.findCall] at hc
            simp only [Hangup.found,hc,if_neg hs]
          have hhangup : w.handleHangup e user callId = ((w.cleanupCall call.callId).emit user.id
              (call.getOtherUserId user.id) call.callId (.hangup none),.success) := by
            simp [World.handleHangup,hu,hc,hs]
          rw [hhangup,hfound]
          exact hcleaned

theorem Disconnect.alone (user : SocketUser) : Alone p e (.disconnect (.sockets user)) w
    (.disconnect .done) (w.handleDisconnect e user).1 := by
  have hdone : ∀ {v}, Alone p e (.disconnect .done) v (.disconnect .done) v := fun {_} => alone_done rfl
  cases hr : e.remaining with
  | true =>
    have hstay : w.handleDisconnect e user = (w,.silent) := by simp [World.handleDisconnect,hr]
    rw [hstay]
    exact .then (by simp [Call.step,Disconnect.step,Setting.choice,hr]) hdone
  | false =>
    refine .next (.disconnect (.key user)) w
      (by simp [Call.step,Disconnect.step,Setting.choice,hr]) ?_
    cases hk : w.userCall user.id with
    | none =>
      have hstay : w.handleDisconnect e user = (w,.silent) := by simp [World.handleDisconnect,hr,hk]
      rw [hstay]
      exact .then (by simp [Call.step,Disconnect.step,Setting.choice,hk]) hdone
    | some callId =>
      refine .next (.disconnect (.cleanup user (.read callId))) w
        (by simp [Call.step,Disconnect.step,Setting.choice,hk]) ?_
      refine alone_cleanup (f := fun s => .disconnect (.cleanup user s))
        (g := Disconnect.cleaned user) ?_ ?_
      · intro s
        simp only [Call.step,Disconnect.step,Disconnect.cleaned]
        rcases s.step e.choice w with ⟨_ | r,_⟩
        · rfl
        · cases r with
          | none => rfl
          | some call =>
            dsimp only
            split <;> rfl
      · cases ha : toActiveCall callId (w.room callId) with
        | none =>
          have hstay : w.handleDisconnect e user = (w.cleanupCall callId,.silent) := by
            simp [World.handleDisconnect,hr,hk,ha]
          rw [hstay]
          exact hdone
        | some call =>
          by_cases hs : call.status = .connected
          · simp only [Disconnect.cleaned,if_pos hs]
            refine alone_finish (f := fun s => .disconnect (.finish user call s))
              (g := fun r w => if r then (.disconnect .done,w.emit user.id (call.getOtherUserId user.id)
                  call.callId (.hangup (some "disconnected")))
                else (.disconnect .done,w)) ?_ ?_
            · intro s v
              simp only [Call.step,Disconnect.step]
              rcases s.step e.choice v with ⟨_ | r,_⟩
              · rfl
              · cases r <;> rfl
            · cases hf : ((w.cleanupCall callId).finishConnectedCall e call).2 with
              | true =>
                have hend : w.handleDisconnect e user =
                    (((w.cleanupCall callId).finishConnectedCall e call).1.emit user.id
                      (call.getOtherUserId user.id) call.callId (.hangup (some "disconnected")),.silent) := by
                  simp [World.handleDisconnect,hr,hk,ha,hs,hf]
                rw [hend]
                exact hdone
              | false =>
                have hend : w.handleDisconnect e user =
                    (((w.cleanupCall callId).finishConnectedCall e call).1,.silent) := by
                  simp [World.handleDisconnect,hr,hk,ha,hs,hf]
                rw [hend]
                exact hdone
          · have hend : w.handleDisconnect e user = ((w.cleanupCall callId).emit user.id
                (call.getOtherUserId user.id) call.callId (.hangup (some "caller_disconnected")),.silent) := by
              simp [World.handleDisconnect,hr,hk,ha,hs]
            rw [hend]
            simp only [Disconnect.cleaned,if_neg hs]
            exact hdone

end

/-- A handler that runs alone does what the function does, and answers as it does. -/
theorem handle_alone (p : ℕ) (e : Setting) (r : Request) (w : World) :
    Alone p e r.call w (r.answered (w.handle e r).2) (w.handle e r).1 := by
  cases r with
  | invite user t => exact Dial.alone user _
  | initiate user ts c => exact Dial.alone user _
  | accept user callId => exact Accept.alone user callId
  | reject user callId => exact Reject.alone user callId
  | hangup user callId => exact Hangup.alone user callId
  | disconnect user => exact Disconnect.alone user

/-- Events arrive in their first control state. -/
def Arrives (_ : Config World Call) : Label Call Choice Env → Prop
  | .spawn q => q.Initial
  | _ => True

theorem Request.call_initial (r : Request) : r.call.Initial := by
  cases r with
  | invite user t => exact .dial _ _
  | initiate user ts c => exact .dial _ _
  | accept user callId => exact .accept _ _
  | reject user callId => exact .reject _ _
  | hangup user callId => exact .hangup _ _
  | disconnect user => exact .disconnect _

/-- A sequence of events is a run of the system. -/
theorem Reaches.run {ok : World → Happening → Prop} {w w' : World} (h : Reaches ok w w') :
    ∃ pool, Run system Arrives ⟨w,[]⟩ ⟨w',pool⟩ := by
  induction h with
  | refl => exact ⟨[],.refl _⟩
  | tail _ hstep ih =>
    obtain ⟨hp,_,rfl⟩ := hstep
    obtain ⟨pool,hpool⟩ := ih
    rename_i v _ _
    cases hp with
    | request e r =>
      have hspawned : Run system Arrives ⟨w,[]⟩ ⟨v,pool++[r.call]⟩ :=
        hpool.tail (l := .spawn r.call) r.call_initial rfl
      have halone : Run system Arrives ⟨v,pool++[r.call]⟩ ⟨v.next (.request e r),_⟩ :=
        (handle_alone pool.length e r v).run (fun _ => trivial) (by simp)
      exact ⟨_,hspawned.trans halone⟩
    | expire c => exact ⟨pool,hpool.tail (l := .env (.expireCall c)) trivial rfl⟩
    | presence u b => exact ⟨pool,hpool.tail (l := .env (.presence u b)) trivial rfl⟩
    | tick ms => exact ⟨pool,hpool.tail (l := .env (.tick ms)) trivial rfl⟩

end Calls

end ZevraServer
