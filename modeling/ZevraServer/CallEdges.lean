import ZevraServer.CallSteps

/-!
# The control flow of the events of a call

One constructor for each way a handler can move, with the answer that led there and the
world it leaves behind.
-/

namespace ZevraServer

namespace Calls

variable {ch : Choice} {w w' : World}

/-! ### `invite` and `initiate` -/

inductive Dial.Edge (ch : Choice) (w : World) : Dial → Dial → World → Prop
  | refused {user d} (r) : Edge ch w (.request user d) (.done r) w
  | allowed {user d} (h : d.invalid? user.id = none) :
      Edge ch w (.request user d) (.own user d (.key user.id)) w
  | more {user d s} (s') : Edge ch w (.own user d s) (.own user d s') w
  | busy {user d s} (r) : Edge ch w (.own user d s) (.done r) w
  | free {user d s t} (h : d.target? user.id = some t) : Edge ch w (.own user d s) (.target user d t (.key t)) w
  | targetMore {user d t s} (s') : Edge ch w (.target user d t s) (.target user d t s') w
  | targetBusy {user d t s} : Edge ch w (.target user d t s) (.done targetBusy) w
  | targetFree {user d t s} : Edge ch w (.target user d t s) (.online user d t) w
  | offline {user d t} : Edge ch w (.online user d t) (.done d.offline) w
  | online {user d t} : Edge ch w (.online user d t) (.log user d t) w
  | unlogged {user d t} : Edge ch w (.log user d t) (.done .thrown) w
  | logged {user d t v} (h : w.createCallLog ch.setting.logId user.id t d.channelId = some v) :
      Edge ch w (.log user d t) (.create user d t ch.setting.logId) v
  | failed {user d t id} (h : ch.fails = true) : Edge ch w (.create user d t id) (.done .thrown) w
  | invited {user t' t id} (h : ch.fails = false) : Edge ch w (.create user (.invite t') t id)
      (.done (.call ch.setting.callId id))
      ((w.createCall ch.setting.callId user.id t id).announce user (.invite t') t ch.setting.callId)
  | created {user ts c t id} (h : ch.fails = false) : Edge ch w (.create user (.initiate ts c) t id)
      (.names user (.initiate ts c) t ch.setting.callId id) (w.createCall ch.setting.callId user.id t id)
  | nameless {user d t callId id} : Edge ch w (.names user d t callId id) (.done .thrown) w
  | announced {user d t callId id} : Edge ch w (.names user d t callId id) (.done (.call callId id))
      (w.announce user d t callId)

theorem Dial.edge {q q' : Dial} (h : q.step ch w = some (q',w')) : Dial.Edge ch w q q' w' := by
  cases q with
  | request user d =>
    simp only [Dial.step] at h
    split at h
    · obtain ⟨rfl,rfl⟩ := Prod.mk.inj (Option.some.inj h)
      exact .refused _
    · rename_i hd
      split at h <;> obtain ⟨rfl,rfl⟩ := Prod.mk.inj (Option.some.inj h)
      · exact .refused _
      · exact .allowed hd
  | own user d s =>
    simp only [Dial.step] at h
    split at h
    · obtain ⟨rfl,rfl⟩ := Prod.mk.inj (Option.some.inj h)
      exact .more _
    · obtain ⟨rfl,rfl⟩ := Prod.mk.inj (Option.some.inj h)
      exact .busy _
    · split at h <;> rename_i ht <;> obtain ⟨rfl,rfl⟩ := Prod.mk.inj (Option.some.inj h)
      · exact .busy _
      · exact .free ht
  | target user d t s =>
    simp only [Dial.step] at h
    split at h <;> obtain ⟨rfl,rfl⟩ := Prod.mk.inj (Option.some.inj h)
    · exact .targetMore _
    · exact .targetBusy
    · exact .targetFree
  | online user d t =>
    simp only [Dial.step] at h
    split at h <;> obtain ⟨rfl,rfl⟩ := Prod.mk.inj (Option.some.inj h)
    · exact .offline
    · exact .online
  | log user d t =>
    simp only [Dial.step] at h
    split at h
    · obtain ⟨rfl,rfl⟩ := Prod.mk.inj (Option.some.inj h)
      exact .unlogged
    · split at h <;> rename_i hl <;> obtain ⟨rfl,rfl⟩ := Prod.mk.inj (Option.some.inj h)
      · exact .unlogged
      · exact .logged hl
  | create user d t id =>
    simp only [Dial.step] at h
    split at h <;> rename_i hf
    · obtain ⟨rfl,rfl⟩ := Prod.mk.inj (Option.some.inj h)
      exact .failed hf
    · cases d with
      | invite t' =>
        obtain ⟨rfl,rfl⟩ := Prod.mk.inj (Option.some.inj h)
        exact .invited (by simpa using hf)
      | initiate ts c =>
        obtain ⟨rfl,rfl⟩ := Prod.mk.inj (Option.some.inj h)
        exact .created (by simpa using hf)
  | names user d t callId id =>
    simp only [Dial.step] at h
    split at h <;> obtain ⟨rfl,rfl⟩ := Prod.mk.inj (Option.some.inj h)
    · exact .nameless
    · exact .announced
  | done r => simp [Dial.step] at h

theorem find_of_filter {r : Option ActiveCall} {call : ActiveCall} {callId : String}
    (h : r.filter (·.callId = callId) = some call) : r = some call ∧ call.callId = callId := by
  simpa using Option.filter_eq_some_iff.mp h

/-- A handler that names a call refuses the name or looks the call up. -/
theorem named_cases {Q : Type} (callId : String) (find : Q) (refused : Reply → Q) :
    (∃ r, named callId find refused = refused r) ∨ named callId find refused = find := by
  unfold named
  split
  · exact .inl ⟨_,rfl⟩
  · exact .inr rfl

/-! ### `accept` -/

/-- The room of an accepted call; a failed write is ignored. -/
abbrev World.accepted (w : World) (ch : Choice) (call : ActiveCall) : World :=
  if ch.fails then w else w.acceptCall call

inductive Accept.Edge (ch : Choice) (w : World) : Accept → Accept → World → Prop
  | refused {user callId} (r) : Edge ch w (.request user callId) (.done r) w
  | named {user callId} : Edge ch w (.request user callId) (.find user callId (.key user.id)) w
  | more {user callId s s'} (h : s.step ch w = .more s') : Edge ch w (.find user callId s) (.find user callId s') w
  | unknown {user callId s} : Edge ch w (.find user callId s) (.done callNotFound) w
  | found {user callId s call} (h : s.step ch w = .result (some call)) (ht : call.targetId = user.id) :
      Edge ch w (.find user callId s) (.write user call) w
  | unlogged {user call} : Edge ch w (.write user call) (.done .success)
      ((w.accepted ch call).emitAccepted user call)
  | logged {user call} (id) : Edge ch w (.write user call) (.log user call id) (w.accepted ch call)
  | failed {user call id} : Edge ch w (.log user call id) (.done .thrown) w
  | accepted {user call id} : Edge ch w (.log user call id) (.done .success)
      ((w.updateCallLogAccepted id).emitAccepted user call)

theorem Accept.edge {q q' : Accept} (h : q.step ch w = some (q',w')) : Accept.Edge ch w q q' w' := by
  cases q with
  | request user callId =>
    obtain ⟨rfl,rfl⟩ := Prod.mk.inj (Option.some.inj h)
    rcases named_cases callId (Accept.find user callId (.key user.id)) .done with ⟨r,hr⟩ | hr
    · rw [hr]
      exact .refused r
    · rw [hr]
      exact .named
  | find user callId s =>
    simp only [Accept.step] at h
    split at h
    · rename_i hs
      obtain ⟨rfl,rfl⟩ := Prod.mk.inj (Option.some.inj h)
      exact .more hs
    · rename_i hs
      split at h <;> rename_i hr <;> obtain ⟨rfl,rfl⟩ := Prod.mk.inj (Option.some.inj h)
      · exact .unknown
      · obtain ⟨hr,ht⟩ := Option.filter_eq_some_iff.mp hr
        obtain ⟨rfl,_⟩ := find_of_filter hr
        exact .found hs (by simpa using ht)
  | write user call =>
    simp only [Accept.step] at h
    split at h <;> obtain ⟨rfl,rfl⟩ := Prod.mk.inj (Option.some.inj h)
    · exact .unlogged
    · exact .logged _
  | log user call id =>
    simp only [Accept.step] at h
    split at h <;> obtain ⟨rfl,rfl⟩ := Prod.mk.inj (Option.some.inj h)
    · exact .failed
    · exact .accepted
  | done r => simp [Accept.step] at h

/-! ### `reject` -/

inductive Reject.Edge (ch : Choice) (w : World) : Reject → Reject → World → Prop
  | refused {user callId} (r) : Edge ch w (.request user callId) (.done r) w
  | named {user callId} : Edge ch w (.request user callId) (.find user callId (.key user.id)) w
  | more {user callId s s'} (h : s.step ch w = .more s') : Edge ch w (.find user callId s) (.find user callId s') w
  | unknown {user callId s} : Edge ch w (.find user callId s) (.done callNotFound) w
  | unlogged {user callId s call} (h : s.step ch w = .result (some call)) :
      Edge ch w (.find user callId s) (.create user call) w
  | logged {user callId s call} (h : s.step ch w = .result (some call)) (id) :
      Edge ch w (.find user callId s) (.log user call id) w
  | lost {user call} : Edge ch w (.create user call) (.done .thrown) w
  | inserted {user call v} (h : w.createCallLog ch.setting.logId call.initiatorId call.targetId none = some v) :
      Edge ch w (.create user call) (.log user call ch.setting.logId) v
  | failed {user call id} : Edge ch w (.log user call id) (.done .thrown) w
  | rejected {user call id} : Edge ch w (.log user call id) (.cleanup user call (.read call.callId))
      (w.updateCallLogRejected id)
  | cleaning {user call s} (s') : Edge ch w (.cleanup user call s) (.cleanup user call s') (s.step ch w).2
  | cleaned {user call s} : Edge ch w (.cleanup user call s) (.done .success)
      ((s.step ch w).2.emit user.id (call.getOtherUserId user.id) call.callId .rejected)

theorem Reject.edge {q q' : Reject} (h : q.step ch w = some (q',w')) : Reject.Edge ch w q q' w' := by
  cases q with
  | request user callId =>
    obtain ⟨rfl,rfl⟩ := Prod.mk.inj (Option.some.inj h)
    rcases named_cases callId (Reject.find user callId (.key user.id)) .done with ⟨r,hr⟩ | hr
    · rw [hr]
      exact .refused r
    · rw [hr]
      exact .named
  | find user callId s =>
    simp only [Reject.step] at h
    split at h
    · rename_i hs
      obtain ⟨rfl,rfl⟩ := Prod.mk.inj (Option.some.inj h)
      exact .more hs
    · rename_i hs
      split at h
      · obtain ⟨rfl,rfl⟩ := Prod.mk.inj (Option.some.inj h)
        exact .unknown
      · rename_i hr
        obtain ⟨rfl,_⟩ := find_of_filter hr
        split at h <;> obtain ⟨rfl,rfl⟩ := Prod.mk.inj (Option.some.inj h)
        · exact .logged hs _
        · exact .unlogged hs
  | create user call =>
    simp only [Reject.step] at h
    split at h
    · obtain ⟨rfl,rfl⟩ := Prod.mk.inj (Option.some.inj h)
      exact .lost
    · split at h <;> rename_i hl <;> obtain ⟨rfl,rfl⟩ := Prod.mk.inj (Option.some.inj h)
      · exact .lost
      · exact .inserted hl
  | log user call id =>
    simp only [Reject.step] at h
    split at h <;> obtain ⟨rfl,rfl⟩ := Prod.mk.inj (Option.some.inj h)
    · exact .failed
    · exact .rejected
  | cleanup user call s =>
    simp only [Reject.step] at h
    split at h <;> rename_i hs <;> obtain ⟨rfl,rfl⟩ := Prod.mk.inj (Option.some.inj h)
    · obtain rfl := congrArg Prod.snd hs
      exact .cleaning _
    · obtain rfl := congrArg Prod.snd hs
      exact .cleaned
  | done r => simp [Reject.step] at h

/-! ### `hangup` -/

inductive Hangup.Edge (ch : Choice) (w : World) : Hangup → Hangup → World → Prop
  | refused {user callId} (r) : Edge ch w (.request user callId) (.done r) w
  | named {user callId} : Edge ch w (.request user callId) (.find user callId (.key user.id)) w
  | more {user callId s s'} (h : s.step ch w = .more s') : Edge ch w (.find user callId s) (.find user callId s') w
  | unknown {user callId s} : Edge ch w (.find user callId s) (.done callNotFound) w
  | connected {user callId s call} (h : s.step ch w = .result (some call)) :
      Edge ch w (.find user callId s) (.finish user call (.start call)) w
  | ringing {user callId s call} (h : s.step ch w = .result (some call)) :
      Edge ch w (.find user callId s) (.cleanup user call (.read call.callId)) w
  | finishing {user call s} (s') : Edge ch w (.finish user call s) (.finish user call s') (s.step ch w).2
  | finished {user call s} : Edge ch w (.finish user call s) (.cleanup user call (.read call.callId))
      (s.step ch w).2
  | failed {user call s} : Edge ch w (.finish user call s) (.done .thrown) (s.step ch w).2
  | cleaning {user call s} (s') : Edge ch w (.cleanup user call s) (.cleanup user call s') (s.step ch w).2
  | cleaned {user call s} : Edge ch w (.cleanup user call s) (.done .success)
      ((s.step ch w).2.emit user.id (call.getOtherUserId user.id) call.callId (.hangup none))

theorem Hangup.edge {q q' : Hangup} (h : q.step ch w = some (q',w')) : Hangup.Edge ch w q q' w' := by
  cases q with
  | request user callId =>
    obtain ⟨rfl,rfl⟩ := Prod.mk.inj (Option.some.inj h)
    rcases named_cases callId (Hangup.find user callId (.key user.id)) .done with ⟨r,hr⟩ | hr
    · rw [hr]
      exact .refused r
    · rw [hr]
      exact .named
  | find user callId s =>
    simp only [Hangup.step] at h
    split at h
    · rename_i hs
      obtain ⟨rfl,rfl⟩ := Prod.mk.inj (Option.some.inj h)
      exact .more hs
    · rename_i hs
      split at h
      · obtain ⟨rfl,rfl⟩ := Prod.mk.inj (Option.some.inj h)
        exact .unknown
      · rename_i hr
        obtain ⟨rfl,_⟩ := find_of_filter hr
        split at h <;> obtain ⟨rfl,rfl⟩ := Prod.mk.inj (Option.some.inj h)
        · exact .connected hs
        · exact .ringing hs
  | finish user call s =>
    simp only [Hangup.step] at h
    split at h <;> rename_i hs <;> obtain ⟨rfl,rfl⟩ := Prod.mk.inj (Option.some.inj h)
    · obtain rfl := congrArg Prod.snd hs
      exact .finishing _
    · obtain rfl := congrArg Prod.snd hs
      exact .finished
    · obtain rfl := congrArg Prod.snd hs
      exact .failed
  | cleanup user call s =>
    simp only [Hangup.step] at h
    split at h <;> rename_i hs <;> obtain ⟨rfl,rfl⟩ := Prod.mk.inj (Option.some.inj h)
    · obtain rfl := congrArg Prod.snd hs
      exact .cleaning _
    · obtain rfl := congrArg Prod.snd hs
      exact .cleaned
  | done r => simp [Hangup.step] at h

/-! ### `handleUserDisconnect` -/

inductive Disconnect.Edge (ch : Choice) (w : World) : Disconnect → Disconnect → World → Prop
  | remains {user} : Edge ch w (.sockets user) .done w
  | last {user} : Edge ch w (.sockets user) (.key user) w
  | idle {user} : Edge ch w (.key user) .done w
  | keyed {user callId} (h : w.userCall user.id = some callId) :
      Edge ch w (.key user) (.cleanup user (.read callId)) w
  | cleaning {user s s'} (h : (s.step ch w).1 = .more s') :
      Edge ch w (.cleanup user s) (.cleanup user s') (s.step ch w).2
  | gone {user s} : Edge ch w (.cleanup user s) .done (s.step ch w).2
  | connected {user s call} (h : (s.step ch w).1 = .result (some call)) :
      Edge ch w (.cleanup user s) (.finish user call (.start call)) (s.step ch w).2
  | ringing {user s call} (h : (s.step ch w).1 = .result (some call)) : Edge ch w (.cleanup user s) .done
      ((s.step ch w).2.emit user.id (call.getOtherUserId user.id) call.callId
        (.hangup (some "caller_disconnected")))
  | finishing {user call s} (s') : Edge ch w (.finish user call s) (.finish user call s') (s.step ch w).2
  | finished {user call s} : Edge ch w (.finish user call s) .done
      ((s.step ch w).2.emit user.id (call.getOtherUserId user.id) call.callId (.hangup (some "disconnected")))
  | failed {user call s} : Edge ch w (.finish user call s) .done (s.step ch w).2

theorem Disconnect.edge {q q' : Disconnect} (h : q.step ch w = some (q',w')) : Disconnect.Edge ch w q q' w' := by
  cases q with
  | sockets user =>
    simp only [Disconnect.step] at h
    split at h <;> obtain ⟨rfl,rfl⟩ := Prod.mk.inj (Option.some.inj h)
    · exact .remains
    · exact .last
  | key user =>
    simp only [Disconnect.step] at h
    split at h
    · obtain ⟨rfl,rfl⟩ := Prod.mk.inj (Option.some.inj h)
      exact .idle
    · split at h <;> rename_i hk <;> obtain ⟨rfl,rfl⟩ := Prod.mk.inj (Option.some.inj h)
      · exact .idle
      · exact .keyed hk
  | cleanup user s =>
    simp only [Disconnect.step] at h
    split at h <;> rename_i hs
    · obtain ⟨rfl,rfl⟩ := Prod.mk.inj (Option.some.inj h)
      obtain rfl := congrArg Prod.snd hs
      exact .cleaning (congrArg Prod.fst hs)
    · obtain ⟨rfl,rfl⟩ := Prod.mk.inj (Option.some.inj h)
      obtain rfl := congrArg Prod.snd hs
      exact .gone
    · obtain rfl := congrArg Prod.snd hs
      split at h <;> obtain ⟨rfl,rfl⟩ := Prod.mk.inj (Option.some.inj h)
      · exact .connected (congrArg Prod.fst hs)
      · exact .ringing (congrArg Prod.fst hs)
  | finish user call s =>
    simp only [Disconnect.step] at h
    split at h <;> rename_i hs <;> obtain ⟨rfl,rfl⟩ := Prod.mk.inj (Option.some.inj h)
    · obtain rfl := congrArg Prod.snd hs
      exact .finishing _
    · obtain rfl := congrArg Prod.snd hs
      exact .finished
    · obtain rfl := congrArg Prod.snd hs
      exact .failed
  | done => simp [Disconnect.step] at h

/-! ### The signals -/

inductive Relay.Edge (ch : Choice) (w : World) : Relay → Relay → World → Prop
  | refused {user callId signal} : Edge ch w (.request user callId signal) .done w
  | named {user callId signal} : Edge ch w (.request user callId signal) (.find user callId signal (.key user.id)) w
  | more {user callId signal s s'} (h : s.step ch w = .more s') :
      Edge ch w (.find user callId signal s) (.find user callId signal s') w
  | unknown {user callId signal s} : Edge ch w (.find user callId signal s) .done w
  | relayed {user callId signal s call} (h : s.step ch w = .result (some call)) :
      Edge ch w (.find user callId signal s) .done
        (w.emit user.id (call.getOtherUserId user.id) call.callId (.signal signal user.id))

theorem Relay.edge {q q' : Relay} (h : q.step ch w = some (q',w')) : Relay.Edge ch w q q' w' := by
  cases q with
  | request user callId signal =>
    simp only [Relay.step] at h
    split at h <;> obtain ⟨rfl,rfl⟩ := Prod.mk.inj (Option.some.inj h)
    · exact .refused
    · exact .named
  | find user callId signal s =>
    simp only [Relay.step] at h
    split at h
    · rename_i hs
      obtain ⟨rfl,rfl⟩ := Prod.mk.inj (Option.some.inj h)
      exact .more hs
    · rename_i hs
      split at h <;> rename_i hr <;> obtain ⟨rfl,rfl⟩ := Prod.mk.inj (Option.some.inj h)
      · exact .unknown
      · obtain ⟨rfl,_⟩ := find_of_filter hr
        exact .relayed hs
  | done => simp [Relay.step] at h

end Calls

end ZevraServer
