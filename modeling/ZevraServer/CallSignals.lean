import ZevraServer.CallRooms

/-!
# Who hears of a call

The peer of an event is the other id of the room, and no handler checks that its user is one of
the two. It is: a user key only ever names a call that was created for the user, and a room
that carries parties carries those of its creation, whatever expires or fails in between.
-/

namespace ZevraServer

namespace Calls

open Interleaving

/-- Events arrive in their first control state, and a drawn call id is new. -/
def FreshCalls (c : Config World Call) : Label Call Choice Env → Prop
  | .spawn q => q.Initial
  | .run p ch => ∀ user d t id, c.pool[p]? = some (.dial (.create user d t id)) →
      ch.setting.callId ∉ c.world.drawn
  | .env _ => True

abbrev Steps := List (Config World Call × Label Call Choice Env)

/-- One of the steps is the `createCall` that generated the id, for these two users. -/
def CreatedBy (tr : Steps) (callId : String) (initiatorId targetId : RawId) : Prop :=
  ∃ c p ch user d id, (c,.run p ch) ∈ tr ∧ c.pool[p]? = some (.dial (.create user d targetId id)) ∧
    ch.fails = false ∧ ch.setting.callId = callId ∧ user.id = initiatorId

/-- The events that are meant for the other party. -/
def Event.signalling : Event → Bool
  | .incoming _ _ => false
  | .methodSelected _ _ => false
  | _ => true

def Event.isAccepted : Event → Bool
  | .accepted _ _ => true
  | _ => false

/-- The emission goes from one party of the call to the other. -/
def Emission.Proper (tr : Steps) (m : Emission) : Prop :=
  m.event.signalling = true → ∃ a b, CreatedBy tr m.callId a b ∧ a ≠ b ∧
    (m.cause = a ∧ m.target = b ∨ m.cause = b ∧ m.target = a) ∧
    (m.event.isAccepted = true → m.cause = b)

/-! ### What the handlers know -/

/-- The call was created for two users, of which this is one. -/
def PartyOf (tr : Steps) (userId : RawId) (callId : String) : Prop :=
  ∃ a b, CreatedBy tr callId a b ∧ a ≠ b ∧ userId ∈ [a,b]

/-- The active call is one that was created, and the user is a party. -/
structure ActiveCall.Of (tr : Steps) (userId : RawId) (call : ActiveCall) : Prop where
  created : CreatedBy tr call.callId call.initiatorId call.targetId
  distinct : call.initiatorId ≠ call.targetId
  party : userId ∈ [call.initiatorId,call.targetId]

/-- The hash carries the parties of the call, if any. -/
def Hash.Of (tr : Steps) (callId : String) (data : Option Hash) : Prop :=
  ∀ p, data.bind (·.parties) = some p → CreatedBy tr callId p.initiatorId p.targetId

def Lookup.Knows (tr : Steps) (userId : RawId) : Lookup → Prop
  | .key u => u = userId
  | .room callId => PartyOf tr userId callId

def Cleanup.Knows (tr : Steps) (userId : RawId) : Cleanup → Prop
  | .read callId => PartyOf tr userId callId
  | .write callId data => PartyOf tr userId callId ∧ Hash.Of tr callId data

def Call.Knows (tr : Steps) : Call → Prop
  | .dial (.own user d _) => d.invalid? user.id = none
  | .dial (.target user _ t _) => user.id ≠ t
  | .dial (.online user _ t) => user.id ≠ t
  | .dial (.log user _ t) => user.id ≠ t
  | .dial (.create user _ t _) => user.id ≠ t
  | .dial _ => True
  | .accept (.find user _ s) => s.Knows tr user.id
  | .accept (.write user call) => call.Of tr user.id ∧ call.targetId = user.id
  | .accept (.log user call _) => call.Of tr user.id ∧ call.targetId = user.id
  | .accept _ => True
  | .reject (.find user _ s) => s.Knows tr user.id
  | .reject (.create user call) => call.Of tr user.id
  | .reject (.log user call _) => call.Of tr user.id
  | .reject (.cleanup user call _) => call.Of tr user.id
  | .reject _ => True
  | .hangup (.find user _ s) => s.Knows tr user.id
  | .hangup (.finish user call _) => call.Of tr user.id
  | .hangup (.cleanup user call _) => call.Of tr user.id
  | .hangup _ => True
  | .disconnect (.cleanup user s) => s.Knows tr user.id
  | .disconnect (.finish user call _) => call.Of tr user.id
  | .disconnect _ => True
  | .relay (.find user _ _ s) => s.Knows tr user.id
  | .relay _ => True

/-- The rooms and the user keys agree with the creations. -/
structure World.Agrees (tr : Steps) (w : World) : Prop where
  rooms : ∀ callId, Hash.Of tr callId (w.room callId)
  keys : ∀ u callId, w.userCall u = some callId → PartyOf tr u callId

section

variable {tr : Steps} {s : Config World Call × Label Call Choice Env} {w w' : World} {ch : Choice}
  {u : RawId} {callId : String} {a b a' b' : RawId}

theorem CreatedBy.snoc (h : CreatedBy tr callId a b) : CreatedBy (tr++[s]) callId a b := by
  obtain ⟨c,p,ch,user,d,id,hmem,hrest⟩ := h
  exact ⟨c,p,ch,user,d,id,List.mem_append_left _ hmem,hrest⟩

theorem PartyOf.snoc (h : PartyOf tr u callId) : PartyOf (tr++[s]) u callId := by
  obtain ⟨a,b,hc,hrest⟩ := h
  exact ⟨a,b,hc.snoc,hrest⟩

theorem ActiveCall.Of.snoc {call : ActiveCall} (h : call.Of tr u) : call.Of (tr++[s]) u :=
  ⟨h.created.snoc,h.distinct,h.party⟩

theorem Hash.Of.snoc {data : Option Hash} (h : Hash.Of tr callId data) : Hash.Of (tr++[s]) callId data :=
  fun p hp => (h p hp).snoc

theorem Lookup.Knows.snoc {q : Lookup} (h : q.Knows tr u) : q.Knows (tr++[s]) u := by
  cases q with
  | key v => exact h
  | room callId => exact PartyOf.snoc h

theorem Cleanup.Knows.snoc {q : Cleanup} (h : q.Knows tr u) : q.Knows (tr++[s]) u := by
  cases q with
  | read callId => exact PartyOf.snoc h
  | write callId data => exact ⟨PartyOf.snoc h.1,Hash.Of.snoc h.2⟩

theorem Emission.Proper.snoc {m : Emission} (h : m.Proper tr) : m.Proper (tr++[s]) := by
  intro hs
  obtain ⟨a,b,hc,hrest⟩ := h hs
  exact ⟨a,b,hc.snoc,hrest⟩

theorem Call.Knows.snoc {q : Call} (h : q.Knows tr) : q.Knows (tr++[s]) := by
  cases q with
  | dial q => cases q <;> exact h
  | accept q =>
    cases q with
    | find => exact Lookup.Knows.snoc h
    | write => exact ⟨h.1.snoc,h.2⟩
    | log => exact ⟨h.1.snoc,h.2⟩
    | _ => trivial
  | reject q =>
    cases q with
    | find => exact Lookup.Knows.snoc h
    | create => exact ActiveCall.Of.snoc h
    | log => exact ActiveCall.Of.snoc h
    | cleanup => exact ActiveCall.Of.snoc h
    | _ => trivial
  | hangup q =>
    cases q with
    | find => exact Lookup.Knows.snoc h
    | finish => exact ActiveCall.Of.snoc h
    | cleanup => exact ActiveCall.Of.snoc h
    | _ => trivial
  | disconnect q =>
    cases q with
    | cleanup => exact Cleanup.Knows.snoc h
    | finish => exact ActiveCall.Of.snoc h
    | _ => trivial
  | relay q =>
    cases q with
    | find => exact Lookup.Knows.snoc h
    | _ => trivial

/-- Each id is created once. -/
def UniqueCreation (tr : Steps) : Prop :=
  ∀ callId a b a' b', CreatedBy tr callId a b → CreatedBy tr callId a' b' → a = a' ∧ b = b'

/-- The call a room shows to a user whose key named it. -/
theorem activeOf {data : Option Hash} {call : ActiveCall} (hu : UniqueCreation tr) (hp : PartyOf tr u callId)
    (hd : Hash.Of tr callId data) (hc : toActiveCall callId data = some call) :
    call.callId = callId ∧ call.Of tr u := by
  obtain ⟨a,b,hcreated,hne,hin⟩ := hp
  cases data with
  | none => simp [toActiveCall] at hc
  | some h =>
    cases hh : h.parties with
    | none => simp [toActiveCall,hh] at hc
    | some p =>
      have hparties := hd p (by simp [hh])
      obtain ⟨rfl,rfl⟩ := hu _ _ _ _ _ hcreated hparties
      simp only [toActiveCall,hh] at hc
      split at hc
      · simp at hc
      · obtain rfl := Option.some.inj hc
        exact ⟨rfl,hcreated,hne,hin⟩

/-- The next command keeps what a helper knows, and a call it returns is one of the user. -/
def Next.Knows {Q : Type} (knows : Q → Prop) (tr : Steps) (u : RawId) : Next Q (Option ActiveCall) → Prop
  | .more q => knows q
  | .result r => ∀ call, r = some call → call.Of tr u

/-- A lookup finds a call of its user. -/
theorem Lookup.step_knows {q : Lookup} (ch : Choice) (hu : UniqueCreation tr) (hw : w.Agrees tr)
    (hq : q.Knows tr u) : (q.step ch w).Knows (·.Knows tr u) tr u := by
  cases q with
  | key v =>
    obtain rfl : v = u := hq
    cases hf : ch.fails with
    | true => simp [Lookup.step,Next.Knows,hf]
    | false =>
      cases hk : w.userCall v with
      | none => simp [Lookup.step,Next.Knows,hf,hk]
      | some callId =>
        simp only [Lookup.step,hf,hk,Bool.false_eq_true,if_false]
        exact hw.keys v callId hk
  | room callId =>
    cases hf : ch.fails with
    | true => simp [Lookup.step,Next.Knows,hf]
    | false =>
      simp only [Lookup.step,hf,Bool.false_eq_true,if_false]
      intro call hcall
      exact (activeOf hu hq (hw.rooms callId) hcall).2

theorem Cleanup.step_knows {q : Cleanup} (ch : Choice) (hu : UniqueCreation tr) (hw : w.Agrees tr)
    (hq : q.Knows tr u) : (q.step ch w).1.Knows (·.Knows tr u) tr u := by
  cases q with
  | read callId =>
    cases hf : ch.fails with
    | true => simp [Cleanup.step,Next.Knows,hf]
    | false => simpa [Cleanup.step,Next.Knows,hf] using ⟨hq,hw.rooms callId⟩
  | write callId data =>
    cases hf : ch.fails with
    | true => simp [Cleanup.step,Next.Knows,hf]
    | false =>
      simp only [Cleanup.step,hf,Bool.false_eq_true,if_false]
      intro call hcall
      exact (activeOf hu hq.1 hq.2 hcall).2

theorem Lookup.more_knows {q q' : Lookup} (h : q.step ch w = .more q') (hu : UniqueCreation tr)
    (hw : w.Agrees tr) (hq : q.Knows tr u) : q'.Knows tr u := by
  have hfound := q.step_knows ch hu hw hq
  rwa [h] at hfound

theorem Lookup.found_knows {q : Lookup} {call : ActiveCall} (h : q.step ch w = .result (some call))
    (hu : UniqueCreation tr) (hw : w.Agrees tr) (hq : q.Knows tr u) : call.Of tr u := by
  have hfound := q.step_knows ch hu hw hq
  rw [h] at hfound
  exact hfound call rfl

theorem Cleanup.more_knows {q q' : Cleanup} (h : (q.step ch w).1 = .more q') (hu : UniqueCreation tr)
    (hw : w.Agrees tr) (hq : q.Knows tr u) : q'.Knows tr u := by
  have hfound := q.step_knows ch hu hw hq
  rwa [h] at hfound

theorem Cleanup.found_knows {q : Cleanup} {call : ActiveCall} (h : (q.step ch w).1 = .result (some call))
    (hu : UniqueCreation tr) (hw : w.Agrees tr) (hq : q.Knows tr u) : call.Of tr u := by
  have hfound := q.step_knows ch hu hw hq
  rw [h] at hfound
  exact hfound call rfl

/-! ### What is emitted -/

theorem World.emitted_createCallLog {id : String} {c : Option String}
    (h : w.createCallLog id a b c = some w') : w'.emitted = w.emitted := by
  unfold World.createCallLog at h
  split at h
  · obtain rfl := Option.some.inj h
    rfl
  · simp at h

theorem World.emitted_insertParticipant (q : Participant) : (w.insertParticipant q).emitted = w.emitted := by
  unfold World.insertParticipant
  split <;> rfl

theorem World.emitted_insertParticipants {call : ActiveCall} {id : String} {now : ℕ} {found : List User}
    (h : w.insertParticipants call id now found = some w') : w'.emitted = w.emitted := by
  unfold World.insertParticipants at h
  split at h
  · obtain rfl := Option.some.inj h
    rw [World.emitted_insertParticipant,World.emitted_insertParticipant]
  · simp at h

theorem World.emitted_delUserCall : (w.delUserCall u).emitted = w.emitted := by
  unfold World.delUserCall
  split <;> rfl

theorem World.emitted_cleanup {data : Option Hash} : (w.cleanup callId data).emitted = w.emitted := by
  unfold World.cleanup
  split
  · rfl
  · rw [World.emitted_delUserCall,World.emitted_delUserCall]
    rfl

theorem Cleanup.step_emitted (q : Cleanup) : (q.step ch w).2.emitted = w.emitted := by
  cases q with
  | read callId => cases hf : ch.fails <;> simp [Cleanup.step,hf]
  | write callId data => cases hf : ch.fails <;> simp [Cleanup.step,hf,World.emitted_cleanup]

theorem Finish.step_emitted (q : Finish) : (q.step ch w).2.emitted = w.emitted := by
  unfold Finish.step
  split
  · rfl
  · cases q with
    | create call =>
      cases hl : w.createCallLog ch.setting.logId call.initiatorId call.targetId none with
      | none => simp [hl]
      | some v => simpa [hl] using World.emitted_createCallLog hl
    | names call id => rfl
    | close call id now found => rfl
    | participants call id now found =>
      cases hi : w.insertParticipants call id now found with
      | none => simp [hi]
      | some v => simpa [hi] using World.emitted_insertParticipants hi

/-- An event for the other party. -/
theorem ActiveCall.Of.proper {call : ActiveCall} (h : call.Of tr u) {e : Event} (he : e.isAccepted = false) :
    Emission.Proper tr ⟨u,call.getOtherUserId u,call.callId,e⟩ := by
  intro _
  refine ⟨call.initiatorId,call.targetId,h.created,h.distinct,?_,fun hacc => by simp [he] at hacc⟩
  unfold ActiveCall.getOtherUserId
  rcases List.mem_pair.mp h.party with rfl | rfl
  · exact .inl ⟨rfl,by simp⟩
  · exact .inr ⟨rfl,by simp [h.distinct]⟩

theorem ActiveCall.Of.proper_accepted {call : ActiveCall} (h : call.Of tr u) (ht : call.targetId = u)
    (e : Event) : Emission.Proper tr ⟨u,call.initiatorId,call.callId,e⟩ :=
  fun _ => ⟨call.initiatorId,call.targetId,h.created,h.distinct,.inr ⟨ht.symm,rfl⟩,fun _ => ht.symm⟩

/-- What a step emits is proper, beside what was emitted before. -/
def Tells (tr : Steps) (w w' : World) : Prop := ∀ m ∈ w'.emitted, m ∈ w.emitted ∨ m.Proper tr

theorem Tells.of_eq (h : w'.emitted = w.emitted) : Tells tr w w' := fun _ hm => .inl (h ▸ hm)

theorem Tells.emit {target : RawId} {e : Event} (h : w'.emitted = w.emitted)
    (hp : Emission.Proper tr ⟨u,target,callId,e⟩) : Tells tr w (w'.emit u target callId e) := by
  intro m hm
  rcases List.mem_append.mp hm with hold | hnew
  · exact .inl (h ▸ hold)
  · obtain rfl := List.mem_singleton.mp hnew
    exact .inr hp

theorem Tells.announce {user : SocketUser} {d : Dialling} {t : RawId} (h : w'.emitted = w.emitted) :
    Tells tr w (w'.announce user d t callId) := by
  have hquiet : ∀ {cause target : RawId} {e : Event}, e.signalling = false →
      Emission.Proper tr ⟨cause,target,callId,e⟩ := fun he hs => by simp [he] at hs
  cases d with
  | invite t' => exact .emit h (hquiet rfl)
  | initiate ts ch =>
    intro m hm
    rcases List.mem_append.mp hm with hold | hnew
    · exact Tells.emit h (hquiet rfl) m hold
    · obtain rfl := List.mem_singleton.mp hnew
      exact .inr (hquiet rfl)

theorem Dialling.target_ne {d : Dialling} {v t : RawId} (hd : d.invalid? v = none) (ht : d.target? v = some t) :
    v ≠ t := by
  rintro rfl
  cases d with
  | invite t' =>
    obtain rfl := Option.some.inj ht
    simp [Dialling.invalid?] at hd
  | initiate ts ch => simp [Dialling.target?,Option.filter_eq_some_iff] at ht

theorem Dial.step_knows {q q' : Dial} (hs : q.step ch w = some (q',w')) (hq : (Call.dial q).Knows tr) :
    (Call.dial q').Knows tr ∧ Tells tr w w' := by
  cases Dial.edge hs with
  | allowed hd => exact ⟨hd,.of_eq rfl⟩
  | more s' => exact ⟨hq,.of_eq rfl⟩
  | free ht => exact ⟨Dialling.target_ne hq ht,.of_eq rfl⟩
  | targetMore s' => exact ⟨hq,.of_eq rfl⟩
  | targetFree => exact ⟨hq,.of_eq rfl⟩
  | online => exact ⟨hq,.of_eq rfl⟩
  | logged hv => exact ⟨hq,.of_eq (World.emitted_createCallLog hv)⟩
  | invited hf => exact ⟨trivial,.announce rfl⟩
  | announced => exact ⟨trivial,.announce rfl⟩
  | _ => exact ⟨trivial,.of_eq rfl⟩

theorem Accept.step_knows {q q' : Accept} (hs : q.step ch w = some (q',w')) (hu : UniqueCreation tr)
    (hw : w.Agrees tr) (hq : (Call.accept q).Knows tr) : (Call.accept q').Knows tr ∧ Tells tr w w' := by
  have hwritten : ∀ call, (w.accepted ch call).emitted = w.emitted := by
    intro call
    unfold World.accepted
    split <;> rfl
  cases Accept.edge hs with
  | named => exact ⟨rfl,.of_eq rfl⟩
  | more h => exact ⟨Lookup.more_knows h hu hw hq,.of_eq rfl⟩
  | found h ht => exact ⟨⟨Lookup.found_knows h hu hw hq,ht⟩,.of_eq rfl⟩
  | unlogged => exact ⟨trivial,.emit (hwritten _) (hq.1.proper_accepted hq.2 _)⟩
  | logged id => exact ⟨hq,.of_eq (hwritten _)⟩
  | accepted => exact ⟨trivial,.emit rfl (hq.1.proper_accepted hq.2 _)⟩
  | _ => exact ⟨trivial,.of_eq rfl⟩

theorem Reject.step_knows {q q' : Reject} (hs : q.step ch w = some (q',w')) (hu : UniqueCreation tr)
    (hw : w.Agrees tr) (hq : (Call.reject q).Knows tr) : (Call.reject q').Knows tr ∧ Tells tr w w' := by
  cases Reject.edge hs with
  | named => exact ⟨rfl,.of_eq rfl⟩
  | more h => exact ⟨Lookup.more_knows h hu hw hq,.of_eq rfl⟩
  | unlogged h => exact ⟨Lookup.found_knows h hu hw hq,.of_eq rfl⟩
  | logged h id => exact ⟨Lookup.found_knows h hu hw hq,.of_eq rfl⟩
  | inserted hv => exact ⟨hq,.of_eq (World.emitted_createCallLog hv)⟩
  | rejected => exact ⟨hq,.of_eq rfl⟩
  | @cleaning user call s s' => exact ⟨hq,.of_eq s.step_emitted⟩
  | @cleaned user call s => exact ⟨trivial,.emit s.step_emitted (ActiveCall.Of.proper hq rfl)⟩
  | _ => exact ⟨trivial,.of_eq rfl⟩

theorem Hangup.step_knows {q q' : Hangup} (hs : q.step ch w = some (q',w')) (hu : UniqueCreation tr)
    (hw : w.Agrees tr) (hq : (Call.hangup q).Knows tr) : (Call.hangup q').Knows tr ∧ Tells tr w w' := by
  cases Hangup.edge hs with
  | named => exact ⟨rfl,.of_eq rfl⟩
  | more h => exact ⟨Lookup.more_knows h hu hw hq,.of_eq rfl⟩
  | connected h => exact ⟨Lookup.found_knows h hu hw hq,.of_eq rfl⟩
  | ringing h => exact ⟨Lookup.found_knows h hu hw hq,.of_eq rfl⟩
  | @finishing user call s s' => exact ⟨hq,.of_eq s.step_emitted⟩
  | @finished user call s => exact ⟨hq,.of_eq s.step_emitted⟩
  | @failed user call s => exact ⟨trivial,.of_eq s.step_emitted⟩
  | @cleaning user call s s' => exact ⟨hq,.of_eq s.step_emitted⟩
  | @cleaned user call s => exact ⟨trivial,.emit s.step_emitted (ActiveCall.Of.proper hq rfl)⟩
  | _ => exact ⟨trivial,.of_eq rfl⟩

theorem Disconnect.step_knows {q q' : Disconnect} (hs : q.step ch w = some (q',w')) (hu : UniqueCreation tr)
    (hw : w.Agrees tr) (hq : (Call.disconnect q).Knows tr) :
    (Call.disconnect q').Knows tr ∧ Tells tr w w' := by
  cases Disconnect.edge hs with
  | keyed hk => exact ⟨hw.keys _ _ hk,.of_eq rfl⟩
  | cleaning h => exact ⟨Cleanup.more_knows h hu hw hq,.of_eq (Cleanup.step_emitted _)⟩
  | @gone user s => exact ⟨trivial,.of_eq s.step_emitted⟩
  | connected h => exact ⟨Cleanup.found_knows h hu hw hq,.of_eq (Cleanup.step_emitted _)⟩
  | ringing h => exact ⟨trivial,.emit (Cleanup.step_emitted _) ((Cleanup.found_knows h hu hw hq).proper rfl)⟩
  | @finishing user call s s' => exact ⟨hq,.of_eq s.step_emitted⟩
  | @finished user call s => exact ⟨trivial,.emit s.step_emitted (ActiveCall.Of.proper hq rfl)⟩
  | @failed user call s => exact ⟨trivial,.of_eq s.step_emitted⟩
  | _ => exact ⟨trivial,.of_eq rfl⟩

theorem Relay.step_knows {q q' : Relay} (hs : q.step ch w = some (q',w')) (hu : UniqueCreation tr)
    (hw : w.Agrees tr) (hq : (Call.relay q).Knows tr) : (Call.relay q').Knows tr ∧ Tells tr w w' := by
  cases Relay.edge hs with
  | named => exact ⟨rfl,.of_eq rfl⟩
  | more h => exact ⟨Lookup.more_knows h hu hw hq,.of_eq rfl⟩
  | relayed h => exact ⟨trivial,.emit rfl ((Lookup.found_knows h hu hw hq).proper rfl)⟩
  | _ => exact ⟨trivial,.of_eq rfl⟩

/-- A step keeps what its handler knows, and emits between the parties. -/
theorem Call.step_knows {q q' : Call} (hs : q.step ch w = some (q',w')) (hu : UniqueCreation tr)
    (hw : w.Agrees tr) (hq : q.Knows tr) : q'.Knows tr ∧ Tells tr w w' := by
  cases q with
  | dial q =>
    obtain ⟨r,hr,he⟩ := Option.map_eq_some_iff.mp hs
    obtain ⟨rfl,rfl⟩ := Prod.mk.inj he
    exact Dial.step_knows hr hq
  | accept q =>
    obtain ⟨r,hr,he⟩ := Option.map_eq_some_iff.mp hs
    obtain ⟨rfl,rfl⟩ := Prod.mk.inj he
    exact Accept.step_knows hr hu hw hq
  | reject q =>
    obtain ⟨r,hr,he⟩ := Option.map_eq_some_iff.mp hs
    obtain ⟨rfl,rfl⟩ := Prod.mk.inj he
    exact Reject.step_knows hr hu hw hq
  | hangup q =>
    obtain ⟨r,hr,he⟩ := Option.map_eq_some_iff.mp hs
    obtain ⟨rfl,rfl⟩ := Prod.mk.inj he
    exact Hangup.step_knows hr hu hw hq
  | disconnect q =>
    obtain ⟨r,hr,he⟩ := Option.map_eq_some_iff.mp hs
    obtain ⟨rfl,rfl⟩ := Prod.mk.inj he
    exact Disconnect.step_knows hr hu hw hq
  | relay q =>
    obtain ⟨r,hr,he⟩ := Option.map_eq_some_iff.mp hs
    obtain ⟨rfl,rfl⟩ := Prod.mk.inj he
    exact Relay.step_knows hr hu hw hq

end

/-! ### The runs -/

/-- No call has been made and nothing has been emitted. -/
structure Silent (w : World) : Prop extends Started w where
  emitted : w.emitted = []

/-- What holds along a run. -/
structure Signals (tr : Steps) (c : Config World Call) : Prop where
  unique : UniqueCreation tr
  drawn : ∀ callId a b, CreatedBy tr callId a b → callId ∈ c.world.drawn
  agrees : c.world.Agrees tr
  knows : ∀ (p : ℕ) (q : Call), c.pool[p]? = some q → q.Knows tr
  told : ∀ m ∈ c.world.emitted, m.Proper tr

section

variable {tr : Steps} {c d : Config World Call} {l : Label Call Choice Env} {w w' : World}
  {callId : String} {a b : RawId}

/-- A creation is an earlier one, or the last step. -/
theorem CreatedBy.of_snoc (h : CreatedBy (tr++[(c,l)]) callId a b) : CreatedBy tr callId a b ∨
    ∃ p ch user d id, l = .run p ch ∧ c.pool[p]? = some (.dial (.create user d b id)) ∧
      ch.fails = false ∧ ch.setting.callId = callId ∧ user.id = a := by
  obtain ⟨c',p,ch,user,d,id,hmem,hrest⟩ := h
  rcases List.mem_append.mp hmem with hold | hnew
  · exact .inl ⟨c',p,ch,user,d,id,hold,hrest⟩
  · obtain ⟨rfl,rfl⟩ := Prod.mk.inj (List.mem_singleton.mp hnew)
    exact .inr ⟨p,ch,user,d,id,rfl,hrest⟩

theorem UniqueCreation.snoc (hu : UniqueCreation tr)
    (hdrawn : ∀ callId a b, CreatedBy tr callId a b → callId ∈ c.world.drawn) (hl : FreshCalls c l) :
    UniqueCreation (tr++[(c,l)]) := by
  intro callId a b a' b' h h'
  rcases h.of_snoc with hold | ⟨p,ch,user,d,id,rfl,hq,hf,rfl,rfl⟩
  · rcases h'.of_snoc with hold' | ⟨p,ch,user,d,id,rfl,hq,hf,rfl,rfl⟩
    · exact hu _ _ _ _ _ hold hold'
    · exact absurd (hdrawn _ _ _ hold) (hl user d b' id hq)
  · rcases h'.of_snoc with hold' | ⟨p',ch',user',d',id',he,hq',_,_,rfl⟩
    · exact absurd (hdrawn _ _ _ hold') (hl user d b id hq)
    · obtain ⟨rfl,rfl⟩ := Label.run.inj he
      have hsame := Option.some.inj (hq.symm.trans hq')
      simp only [Call.dial.injEq,Dial.create.injEq] at hsame
      exact ⟨by rw [hsame.1],hsame.2.2.1⟩

theorem World.Agrees.snoc {s : Config World Call × Label Call Choice Env} (h : w.Agrees tr) :
    w.Agrees (tr++[s]) :=
  ⟨fun callId => (h.rooms callId).snoc,fun u callId hk => (h.keys u callId hk).snoc⟩

theorem World.Agrees.congr (h : w.Agrees tr) (hs : w.SameKeys w') : w'.Agrees tr :=
  ⟨fun callId => hs.room ▸ h.rooms callId,fun u callId hk => h.keys u callId (hs.userCall ▸ hk)⟩

/-- Rooms and keys that are left agree as before. -/
theorem World.Agrees.fewer (h : w.Agrees tr)
    (hrooms : ∀ callId p, w'.parties? callId = some p → w.parties? callId = some p)
    (hkeys : ∀ u callId, w'.userCall u = some callId → w.userCall u = some callId) : w'.Agrees tr :=
  ⟨fun callId p hp => h.rooms callId p (hrooms callId p hp),fun u callId hk => h.keys u callId (hkeys u callId hk)⟩

theorem World.Agrees.created {user : SocketUser} {ch : Choice} {dl : Dialling} {t : RawId} {id : String} {p : ℕ}
    (h : w.Agrees tr) (hq : c.pool[p]? = some (.dial (.create user dl t id)))
    (hf : ch.fails = false) (hne : user.id ≠ t) :
    (w.createCall ch.setting.callId user.id t id).Agrees (tr++[(c,.run p ch)]) := by
  have hnew : CreatedBy (tr++[(c,.run p ch)]) ch.setting.callId user.id t :=
    ⟨c,p,ch,user,dl,id,by simp,hq,hf,rfl,rfl⟩
  refine ⟨fun callId ps hp => ?_,fun u callId hk => ?_⟩
  · have hparties : (w.createCall ch.setting.callId user.id t id).parties? callId = some ps := hp
    rw [World.parties?_createCall] at hparties
    by_cases hc : callId = ch.setting.callId
    · subst hc
      rw [if_pos rfl] at hparties
      obtain rfl := Option.some.inj hparties
      exact hnew
    · rw [if_neg hc] at hparties
      exact (h.rooms callId ps hparties).snoc
  · rw [World.userCall_createCall] at hk
    by_cases hu : u ∈ [user.id,t]
    · rw [if_pos hu] at hk
      obtain rfl := Option.some.inj hk
      exact ⟨_,_,hnew,hne,hu⟩
    · rw [if_neg hu] at hk
      exact (h.keys u callId hk).snoc

theorem Signals.next (h : Signals tr c) (hl : FreshCalls c l) (hn : system.next c l = some d) :
    Signals (tr++[(c,l)]) d := by
  have hunique := h.unique.snoc h.drawn hl
  have hknows : ∀ (p : ℕ) (q : Call), c.pool[p]? = some q → q.Knows (tr++[(c,l)]) := fun p q hq => (h.knows p q hq).snoc
  have htold : ∀ m ∈ c.world.emitted, m.Proper (tr++[(c,l)]) := fun m hm => (h.told m hm).snoc
  have hdrawn : ∀ callId a b, CreatedBy tr callId a b → callId ∈ c.world.drawn := h.drawn
  cases l with
  | spawn q =>
    simp only [System.next,Option.some.injEq] at hn
    subst hn
    refine ⟨hunique,fun callId a b hc => ?_,h.agrees.snoc,fun r s hr => ?_,htold⟩
    · rcases hc.of_snoc with hold | ⟨_,_,_,_,_,he,_⟩
      · exact hdrawn callId a b hold
      · simp at he
    · rcases pool_append hr with ⟨_,hold⟩ | ⟨_,rfl⟩
      · exact hknows r s hold
      · cases hl <;> trivial
  | env e =>
    obtain ⟨w,hw,rfl⟩ := system.next_env hn
    have hcreated : ∀ callId a b, CreatedBy (tr++[(c,.env e)]) callId a b → callId ∈ c.world.drawn := by
      intro callId a b hc
      rcases hc.of_snoc with hold | ⟨_,_,_,_,_,he,_⟩
      · exact hdrawn callId a b hold
      · simp at he
    have hagrees := h.agrees.snoc (s := (c,.env e))
    cases e with
    | expireCall callId =>
      obtain rfl := Option.some.inj hw
      refine ⟨hunique,hcreated,hagrees.fewer (fun c' p hp => ?_) (fun u c' hk => ?_),hknows,htold⟩
      · rw [World.parties?_expireCall] at hp
        split at hp
        · simp at hp
        · exact hp
      · exact (Option.filter_eq_some_iff.mp hk).1
    | expireRoom callId =>
      obtain rfl := Option.some.inj hw
      refine ⟨hunique,hcreated,hagrees.fewer (fun c' p hp => ?_) (fun u c' hk => hk),hknows,htold⟩
      rw [World.parties?_delRoom] at hp
      split at hp
      · simp at hp
      · exact hp
    | expireUser userId =>
      obtain rfl := Option.some.inj hw
      refine ⟨hunique,hcreated,hagrees.fewer (fun c' p hp => hp) (fun u c' hk => ?_),hknows,htold⟩
      by_cases hu : u = userId
      · simp [hu] at hk
      · simpa [hu] using hk
    | presence userId online =>
      obtain rfl := Option.some.inj hw
      exact ⟨hunique,hcreated,hagrees.congr ⟨rfl,rfl,rfl⟩,hknows,htold⟩
    | tick ms =>
      obtain rfl := Option.some.inj hw
      exact ⟨hunique,hcreated,hagrees.congr ⟨rfl,rfl,rfl⟩,hknows,htold⟩
  | run p ch =>
    obtain ⟨q,q',w,hq,hs,rfl⟩ := system.next_run hn
    obtain ⟨hknown,htells⟩ := Call.step_knows hs h.unique h.agrees (h.knows p q hq)
    have hold : ∀ callId a b, CreatedBy (tr++[(c,.run p ch)]) callId a b → CreatedBy tr callId a b ∨
        ∃ user dl id, q = .dial (.create user dl b id) ∧ ch.fails = false ∧ ch.setting.callId = callId := by
      intro callId a b hc
      rcases hc.of_snoc with hold | ⟨p',ch',user,dl,id,he,hq',hf,hid,_⟩
      · exact .inl hold
      · obtain ⟨rfl,rfl⟩ := Label.run.inj he
        exact .inr ⟨user,dl,id,Option.some.inj (hq.symm.trans hq'),hf,hid⟩
    have hkept : ∀ {v : World}, v.SameKeys w → v.drawn = c.world.drawn →
        (∀ user dl t id, q = .dial (.create user dl t id) → ch.fails = true) →
        ∀ callId a b, CreatedBy (tr++[(c,.run p ch)]) callId a b → callId ∈ w.drawn := by
      intro v hsame hv hnot callId a b hc
      rw [hsame.drawn,hv]
      rcases hold callId a b hc with hc | ⟨user,dl,id,rfl,hf,_⟩
      · exact hdrawn callId a b hc
      · have hfails := hnot user dl b id rfl
        simp [hf] at hfails
    have hpool : ∀ (r : ℕ) (s : Call), (c.pool.set p q')[r]? = some s → s.Knows (tr++[(c,.run p ch)]) := by
      intro r s hr
      rcases pool_set hr with ⟨_,rfl⟩ | ⟨_,hr⟩
      · exact hknown.snoc
      · exact hknows r s hr
    have hemitted : ∀ m ∈ w.emitted, m.Proper (tr++[(c,.run p ch)]) := by
      intro m hm
      rcases htells m hm with hm | hm
      · exact htold m hm
      · exact hm.snoc
    cases Call.change hs with
    | kept ht hsame =>
      refine ⟨hunique,hkept hsame rfl ?_,(h.agrees.congr hsame).snoc,hpool,hemitted⟩
      rintro user dl t id rfl
      cases hf : ch.fails with
      | true => rfl
      | false => simp [Call.touched?,hf] at ht
    | created hf hsame =>
      rename_i user dl t id
      refine ⟨hunique,fun callId a b hc => ?_,(h.agrees.created hq hf (h.knows p _ hq)).congr hsame,
        hpool,hemitted⟩
      rw [hsame.drawn]
      rcases hold callId a b hc with hc | ⟨user',dl',id',_,_,rfl⟩
      · exact List.mem_append_left _ (hdrawn callId a b hc)
      · simp [World.createCall]
    | accepted hf hsame =>
      rename_i user call
      have hagrees : (c.world.acceptCall call).Agrees tr := by
        refine h.agrees.fewer (fun c' p hp => ?_) fun _ _ hk => hk
        rwa [World.parties?_acceptCall] at hp
      exact ⟨hunique,hkept hsame rfl (fun _ _ _ _ he => by simp at he),(hagrees.congr hsame).snoc,
        hpool,hemitted⟩
    | cleaned hf hc hsame =>
      rename_i callId data
      have hagrees : (c.world.cleanup callId data).Agrees tr := by
        refine h.agrees.fewer (fun c' p hp => ?_) fun u c' hk => ?_
        · rw [World.parties?_cleanup] at hp
          split at hp
          · simp at hp
          · exact hp
        · rw [World.userCall_cleanup] at hk
          split at hk
          · simp at hk
          · exact hk
      refine ⟨hunique,hkept hsame World.drawn_cleanup ?_,(hagrees.congr hsame).snoc,hpool,hemitted⟩
      rintro user dl t id rfl
      simp [Call.cleanup?] at hc

theorem Silent.signals {w₀ : World} (h : Silent w₀) : Signals [] ⟨w₀,[]⟩ := by
  have hnone : ∀ callId a b, ¬ CreatedBy [] callId a b := by
    rintro callId a b ⟨_,_,_,_,_,_,hmem,_⟩
    simp at hmem
  exact ⟨fun _ _ _ _ _ hc => absurd hc (hnone _ _ _),fun _ _ _ hc => absurd hc (hnone _ _ _),
    ⟨fun callId p hp => by simp [h.room callId] at hp,fun u _ hk => by simp [h.userCall u] at hk⟩,
    by simp,by simp [h.emitted]⟩

end

/-- Whatever is signalled about a call goes from one of the two users its `createCall` named to
the other, and only the target causes `call:accepted`. -/
theorem signalling_between_parties (w₀ : World) (tr : Steps) (c : Config World Call) (m : Emission)
    (h₀ : Silent w₀) (h : Trace system FreshCalls ⟨w₀,[]⟩ tr c) (hm : m ∈ c.world.emitted)
    (hs : m.event.signalling = true) :
    ∃ a b, CreatedBy tr m.callId a b ∧ (∀ a' b', CreatedBy tr m.callId a' b' → a' = a ∧ b' = b) ∧
      m.cause ≠ m.target ∧ (m.cause = a ∧ m.target = b ∨ m.cause = b ∧ m.target = a) ∧
      (m.event.isAccepted = true → m.cause = b) := by
  have hsignals : Signals tr c := by
    refine h.invariant h₀.signals ?_
    intro tr a l b ha hl hn
    exact ha.next hl hn
  obtain ⟨a,b,hc,hne,hends,haccepted⟩ := hsignals.told m hm hs
  refine ⟨a,b,hc,fun a' b' hc' => hsignals.unique _ _ _ _ _ hc' hc,?_,hends,haccepted⟩
  rcases hends with ⟨hcause,htarget⟩ | ⟨hcause,htarget⟩
  · rw [hcause,htarget]
    exact hne
  · rw [hcause,htarget]
    exact hne.symm

/-! ### A call that is answered -/

def freshly (c : Config World Call) : Label Call Choice Env → Bool
  | .spawn (.accept (.request _ _)) => true
  | .spawn (.relay (.request _ _ _)) => true
  | l => ordinary c l

theorem freshly_sound (c : Config World Call) (l : Label Call Choice Env) (h : freshly c l = true) :
    FreshCalls c l := by
  have hordinary : ∀ l, ordinary c l = true → FreshCalls c l := by
    intro l hl
    have hsound := ordinary_sound c l hl
    cases l with
    | spawn q => exact hsound
    | run p ch => exact hsound
    | env e => trivial
  cases l with
  | run p ch => exact hordinary _ h
  | env e => trivial
  | spawn q =>
    cases q with
    | accept q => cases q <;> first | exact .accept _ _ | exact hordinary _ h
    | relay q => cases q <;> first | exact .relay _ _ _ | exact hordinary _ h
    | _ => exact hordinary _ h

theorem quiet_silent : Silent quiet := ⟨quiet_started,rfl⟩

/-- What bob tells ada by accepting her call. -/
def answered : Emission := ⟨bob.id,ada.id,firstCall.setting.callId,.accepted bob.id bob.username⟩

/-- The target answers, and offers. -/
theorem signalling_between_parties_quiet :
    Silent quiet ∧ ∃ tr c, Trace system FreshCalls ⟨quiet,[]⟩ tr c ∧ c.world.emitted.length = 3 ∧
      answered ∈ c.world.emitted ∧ CreatedBy tr answered.callId ada.id bob.id := by
  obtain ⟨c,hc,hf⟩ := Run.exists_of_exec (S := system) (c := ⟨quiet,[]⟩) freshly_sound
    (invites ada bob::List.replicate 6 (.run 0 firstCall)++
      .spawn (.accept (.request bob firstCall.setting.callId))::List.replicate 5 (.run 1 secondCall)++
      .spawn (.relay (.request bob firstCall.setting.callId (.offer "v=0")))::
        List.replicate 3 (.run 2 secondCall))
    (f := fun c => (c.world.emitted.length,decide (answered ∈ c.world.emitted)))
    (v := (3,true)) (by decide +kernel)
  obtain ⟨tr,htr⟩ := Trace.of_run hc
  obtain ⟨hlength,hmem⟩ := Prod.mk.inj hf
  have hanswered : answered ∈ c.world.emitted := of_decide_eq_true hmem
  obtain ⟨a,b,hcreated,_,_,hends,hb⟩ :=
    signalling_between_parties quiet tr c answered quiet_silent htr hanswered rfl
  obtain rfl : bob.id = b := hb rfl
  rcases hends with ⟨_,htarget⟩ | ⟨_,htarget⟩
  · exact absurd htarget (by decide)
  · obtain rfl : ada.id = a := htarget
    exact ⟨quiet_silent,tr,c,htr,hlength,hanswered,hcreated⟩

end Calls

end ZevraServer
