import ZevraServer.CallEdges

/-!
# One call for each user

A room is live while its hash carries the parties of its call. The two `MULTI`s that write or
delete user keys do not look at what these keys hold, and the checks before them are steps of
their own. A user is in at most one live room, and the user keys name that room, as long as
neither `MULTI` runs for a user of another live room.
-/

namespace ZevraServer

namespace Calls

open Interleaving

def Parties.users (p : Parties) : List RawId := [p.initiatorId,p.targetId]

/-- The ids whose keys `cleanupCall` deletes. -/
def deletedKeys (data : Option Hash) : List RawId :=
  match data.bind (·.parties) with
  | none => []
  | some p => p.users.filter (· ≠ "")

namespace World

variable (w : World)

/-- The parties a room carries. -/
def parties? (callId : String) : Option Parties := (w.room callId).bind (·.parties)

/-- The user is in a live room other than this one. -/
def Busy (userId : RawId) (callId : String) : Prop :=
  ∃ c p, c ≠ callId ∧ w.parties? c = some p ∧ userId ∈ p.users

/-- No two live rooms share a user, and the keys of the users of a live room name it. -/
structure OneCall : Prop where
  disjoint : ∀ c c' p p', c ≠ c' → w.parties? c = some p → w.parties? c' = some p' →
    ∀ u ∈ p.users, u ∉ p'.users
  keys : ∀ c p, w.parties? c = some p → ∀ u ∈ p.users, w.userCall u = some c

/-- The keys of the calls are as in `w`. -/
structure SameKeys (w' : World) : Prop where
  room : w'.room = w.room
  userCall : w'.userCall = w.userCall
  drawn : w'.drawn = w.drawn

variable {w} {w' : World} {c : String} {u : RawId}

theorem SameKeys.parties? (h : w.SameKeys w') : w'.parties? = w.parties? := by
  funext c
  simp only [World.parties?,h.room]

theorem SameKeys.oneCall (h : w.SameKeys w') : w'.OneCall ↔ w.OneCall := by
  constructor
  · intro hw
    exact ⟨by simpa only [h.parties?] using hw.disjoint,
      by simpa only [h.parties?,h.userCall] using hw.keys⟩
  · intro hw
    exact ⟨by simpa only [h.parties?] using hw.disjoint,
      by simpa only [h.parties?,h.userCall] using hw.keys⟩

theorem parties?_createCall {callId id : String} {a b : RawId} :
    (w.createCall callId a b id).parties? c = if c = callId then some ⟨a,b,id⟩ else w.parties? c := by
  by_cases hc : c = callId
  · simp [hc,parties?,createCall]
  · simp [hc,parties?,createCall]

theorem userCall_createCall {callId id : String} {a b : RawId} :
    (w.createCall callId a b id).userCall u = if u ∈ [a,b] then some callId else w.userCall u := by
  by_cases hb : u = b
  · simp [hb,createCall]
  · by_cases ha : u = a
    · simp [ha,createCall,Function.update_apply]
    · simp [ha,hb,createCall]

theorem parties?_acceptCall {call : ActiveCall} : (w.acceptCall call).parties? c = w.parties? c := by
  by_cases hc : c = call.callId
  · simp [hc,parties?,acceptCall]
  · simp [hc,parties?,acceptCall]

theorem room_delUserCall : (w.delUserCall u).room = w.room := by
  unfold delUserCall
  split <;> rfl

theorem drawn_delUserCall : (w.delUserCall u).drawn = w.drawn := by
  unfold delUserCall
  split <;> rfl

theorem userCall_delUserCall {v : RawId} :
    (w.delUserCall v).userCall u = if u = v ∧ v ≠ "" then none else w.userCall u := by
  unfold delUserCall
  by_cases hv : v = ""
  · simp [hv]
  · by_cases hu : u = v
    · simp [hu,hv]
    · simp [hu,hv]

theorem parties?_delRoom {callId : String} :
    (w.delRoom callId).parties? c = if c = callId then none else w.parties? c := by
  by_cases hc : c = callId
  · simp [hc,parties?,delRoom]
  · simp [hc,parties?,delRoom]

theorem room_cleanup {callId : String} {data : Option Hash} :
    (w.cleanup callId data).room = (w.delRoom callId).room := by
  unfold cleanup
  split
  · rfl
  · rw [room_delUserCall,room_delUserCall]

theorem drawn_cleanup {callId : String} {data : Option Hash} : (w.cleanup callId data).drawn = w.drawn := by
  unfold cleanup
  split
  · rfl
  · rw [drawn_delUserCall,drawn_delUserCall]
    rfl

theorem parties?_cleanup {callId : String} {data : Option Hash} :
    (w.cleanup callId data).parties? c = if c = callId then none else w.parties? c := by
  have hroom : (w.cleanup callId data).parties? c = (w.delRoom callId).parties? c := by
    simp only [parties?,room_cleanup]
  rw [hroom,parties?_delRoom]

theorem userCall_cleanup {callId : String} {data : Option Hash} :
    (w.cleanup callId data).userCall u = if u ∈ deletedKeys data then none else w.userCall u := by
  unfold cleanup deletedKeys
  cases hp : data.bind (·.parties) with
  | none => simp [delRoom]
  | some p =>
    have hroom : (w.delRoom callId).userCall u = w.userCall u := rfl
    simp only [userCall_delUserCall,hroom,Parties.users,List.mem_filter,List.mem_cons,
      List.not_mem_nil,or_false,decide_eq_true_eq]
    grind

theorem parties?_expireCall {callId : String} :
    (w.expireCall callId).parties? c = if c = callId then none else w.parties? c := by
  have hroom : (w.expireCall callId).parties? c = (w.delRoom callId).parties? c := rfl
  rw [hroom,parties?_delRoom]

end World

/-! ### The steps -/

/-- The cleanup a handler is in. -/
def Call.cleanup? : Call → Option Cleanup
  | .reject (.cleanup _ _ s) => some s
  | .hangup (.cleanup _ _ s) => some s
  | .disconnect (.cleanup _ s) => some s
  | _ => none

/-- The user keys a cleanup deletes with its next command. -/
def Cleanup.touched? : Cleanup → Option (String × List RawId)
  | .read _ => none
  | .write callId data => some (callId,deletedKeys data)

/-- The call and the users whose keys the next `MULTI` of a handler writes or deletes. -/
def Call.touched? (q : Call) (ch : Choice) : Option (String × List RawId) :=
  if ch.fails then none
  else match q with
    | .dial (.create user _ t _) => some (ch.setting.callId,[user.id,t])
    | q => q.cleanup?.bind Cleanup.touched?

/-- What a step does to the keys of the calls. -/
inductive Change (ch : Choice) (w : World) : Call → World → Prop
  | kept {q w'} : q.touched? ch = none → w.SameKeys w' → Change ch w q w'
  | created {user d t id w'} : ch.fails = false →
      (w.createCall ch.setting.callId user.id t id).SameKeys w' → Change ch w (.dial (.create user d t id)) w'
  | accepted {user call w'} : ch.fails = false → (w.acceptCall call).SameKeys w' →
      Change ch w (.accept (.write user call)) w'
  | cleaned {q callId data w'} : ch.fails = false → q.cleanup? = some (.write callId data) →
      (w.cleanup callId data).SameKeys w' → Change ch w q w'

section

variable {w w' : World} {ch : Choice}

theorem World.SameKeys.rfl : w.SameKeys w := ⟨Eq.refl _,Eq.refl _,Eq.refl _⟩

theorem World.SameKeys.emit {cause target : RawId} {callId : String} {event : Event}
    (h : w.SameKeys w') : w.SameKeys (w'.emit cause target callId event) :=
  ⟨h.room,h.userCall,h.drawn⟩

theorem World.SameKeys.announce {user : SocketUser} {d : Dialling} {t : RawId} {callId : String} :
    w.SameKeys (w.announce user d t callId) := by
  cases d <;> exact ⟨Eq.refl _,Eq.refl _,Eq.refl _⟩

theorem World.SameKeys.createCallLog {id : String} {a b : RawId} {c : Option String}
    (h : w.createCallLog id a b c = some w') : w.SameKeys w' := by
  unfold World.createCallLog at h
  split at h
  · obtain rfl := Option.some.inj h
    exact ⟨Eq.refl _,Eq.refl _,Eq.refl _⟩
  · simp at h

theorem World.SameKeys.insertParticipant {p : Participant} : w.SameKeys (w.insertParticipant p) := by
  unfold World.insertParticipant
  split <;> exact ⟨Eq.refl _,Eq.refl _,Eq.refl _⟩

theorem World.SameKeys.trans {w'' : World} (h : w.SameKeys w') (h' : w'.SameKeys w'') : w.SameKeys w'' :=
  ⟨h'.room.trans h.room,h'.userCall.trans h.userCall,h'.drawn.trans h.drawn⟩

theorem World.SameKeys.insertParticipants {call : ActiveCall} {id : String} {now : ℕ} {found : List User}
    (h : w.insertParticipants call id now found = some w') : w.SameKeys w' := by
  unfold World.insertParticipants at h
  split at h
  · obtain rfl := Option.some.inj h
    exact World.SameKeys.insertParticipant.trans World.SameKeys.insertParticipant
  · simp at h

theorem Finish.step_sameKeys (s : Finish) : w.SameKeys (s.step ch w).2 := by
  unfold Finish.step
  split
  · exact World.SameKeys.rfl
  · cases s with
    | create call =>
      cases hl : w.createCallLog ch.setting.logId call.initiatorId call.targetId none with
      | none =>
        simp only [hl]
        exact World.SameKeys.rfl
      | some v =>
        simp only [hl]
        exact World.SameKeys.createCallLog hl
    | names call id => exact World.SameKeys.rfl
    | close call id now found => exact ⟨Eq.refl _,Eq.refl _,Eq.refl _⟩
    | participants call id now found =>
      cases hi : w.insertParticipants call id now found with
      | none =>
        simp only [hi]
        exact World.SameKeys.rfl
      | some v =>
        simp only [hi]
        exact World.SameKeys.insertParticipants hi

/-- The step of a cleanup, in terms of the keys. -/
theorem Cleanup.change {q : Call} {s : Cleanup} (hq : q.cleanup? = some s)
    (hdial : ∀ user d t id, q ≠ .dial (.create user d t id)) (h : (s.step ch w).2.SameKeys w') :
    Change ch w q w' := by
  have htouched : q.touched? ch = if ch.fails then none else s.touched? := by
    unfold Call.touched?
    split
    · rfl
    · split
      · exact absurd rfl (hdial _ _ _ _)
      · rw [hq]
        rfl
  cases s with
  | read callId =>
    refine .kept (by simp [htouched,Cleanup.touched?]) ?_
    cases hf : ch.fails <;> simpa [Cleanup.step,hf] using h
  | write callId data =>
    cases hf : ch.fails with
    | true => exact .kept (by simp [htouched,hf]) (by simpa [Cleanup.step,hf] using h)
    | false => exact .cleaned hf hq (by simpa [Cleanup.step,hf] using h)

theorem Dial.change {q q' : Dial} (hs : q.step ch w = some (q',w')) : Change ch w (.dial q) w' := by
  cases Dial.edge hs with
  | logged hl => exact .kept (by simp [Call.touched?,Call.cleanup?]) (.createCallLog hl)
  | failed hf => exact .kept (by simp [Call.touched?,hf]) .rfl
  | invited hf => exact .created hf .announce
  | created hf => exact .created hf .rfl
  | announced => exact .kept (by simp [Call.touched?,Call.cleanup?]) .announce
  | _ => exact .kept (by simp [Call.touched?,Call.cleanup?]) .rfl

theorem Accept.change {q q' : Accept} (hs : q.step ch w = some (q',w')) : Change ch w (.accept q) w' := by
  have hwrite : ∀ {user call v}, (w.accepted ch call).SameKeys v → Change ch w (.accept (.write user call)) v := by
    intro user call v hv
    cases hf : ch.fails with
    | true => exact .kept (by simp [Call.touched?,hf]) (by simpa [World.accepted,hf] using hv)
    | false => exact .accepted hf (by simpa [World.accepted,hf] using hv)
  cases Accept.edge hs with
  | unlogged => exact hwrite (.emit .rfl)
  | logged id => exact hwrite .rfl
  | accepted => exact .kept (by simp [Call.touched?,Call.cleanup?]) ⟨Eq.refl _,Eq.refl _,Eq.refl _⟩
  | _ => exact .kept (by simp [Call.touched?,Call.cleanup?]) .rfl

theorem Reject.change {q q' : Reject} (hs : q.step ch w = some (q',w')) : Change ch w (.reject q) w' := by
  cases Reject.edge hs with
  | inserted hl => exact .kept (by simp [Call.touched?,Call.cleanup?]) (.createCallLog hl)
  | rejected => exact .kept (by simp [Call.touched?,Call.cleanup?]) ⟨Eq.refl _,Eq.refl _,Eq.refl _⟩
  | cleaning s' => exact Cleanup.change (Eq.refl _) (by simp) .rfl
  | cleaned => exact Cleanup.change (Eq.refl _) (by simp) (.emit .rfl)
  | _ => exact .kept (by simp [Call.touched?,Call.cleanup?]) .rfl

theorem Hangup.change {q q' : Hangup} (hs : q.step ch w = some (q',w')) : Change ch w (.hangup q) w' := by
  cases Hangup.edge hs with
  | finishing s' => exact .kept (by simp [Call.touched?,Call.cleanup?]) (Finish.step_sameKeys _)
  | finished => exact .kept (by simp [Call.touched?,Call.cleanup?]) (Finish.step_sameKeys _)
  | failed => exact .kept (by simp [Call.touched?,Call.cleanup?]) (Finish.step_sameKeys _)
  | cleaning s' => exact Cleanup.change (Eq.refl _) (by simp) .rfl
  | cleaned => exact Cleanup.change (Eq.refl _) (by simp) (.emit .rfl)
  | _ => exact .kept (by simp [Call.touched?,Call.cleanup?]) .rfl

theorem Disconnect.change {q q' : Disconnect} (hs : q.step ch w = some (q',w')) :
    Change ch w (.disconnect q) w' := by
  cases Disconnect.edge hs with
  | cleaning h => exact Cleanup.change (Eq.refl _) (by simp) .rfl
  | gone => exact Cleanup.change (Eq.refl _) (by simp) .rfl
  | connected h => exact Cleanup.change (Eq.refl _) (by simp) .rfl
  | ringing h => exact Cleanup.change (Eq.refl _) (by simp) (.emit .rfl)
  | finishing s' => exact .kept (by simp [Call.touched?,Call.cleanup?]) (Finish.step_sameKeys _)
  | finished => exact .kept (by simp [Call.touched?,Call.cleanup?]) (.emit (Finish.step_sameKeys _))
  | failed => exact .kept (by simp [Call.touched?,Call.cleanup?]) (Finish.step_sameKeys _)
  | _ => exact .kept (by simp [Call.touched?,Call.cleanup?]) .rfl

theorem Relay.change {q q' : Relay} (hs : q.step ch w = some (q',w')) : Change ch w (.relay q) w' := by
  cases Relay.edge hs with
  | relayed h => exact .kept (by simp [Call.touched?,Call.cleanup?]) (.emit .rfl)
  | _ => exact .kept (by simp [Call.touched?,Call.cleanup?]) .rfl

theorem Call.change {q q' : Call} (hs : q.step ch w = some (q',w')) : Change ch w q w' := by
  cases q with
  | dial q =>
    obtain ⟨r,hr,he⟩ := Option.map_eq_some_iff.mp hs
    obtain ⟨rfl,rfl⟩ := Prod.mk.inj he
    exact q.change hr
  | accept q =>
    obtain ⟨r,hr,he⟩ := Option.map_eq_some_iff.mp hs
    obtain ⟨rfl,rfl⟩ := Prod.mk.inj he
    exact q.change hr
  | reject q =>
    obtain ⟨r,hr,he⟩ := Option.map_eq_some_iff.mp hs
    obtain ⟨rfl,rfl⟩ := Prod.mk.inj he
    exact q.change hr
  | hangup q =>
    obtain ⟨r,hr,he⟩ := Option.map_eq_some_iff.mp hs
    obtain ⟨rfl,rfl⟩ := Prod.mk.inj he
    exact q.change hr
  | disconnect q =>
    obtain ⟨r,hr,he⟩ := Option.map_eq_some_iff.mp hs
    obtain ⟨rfl,rfl⟩ := Prod.mk.inj he
    exact q.change hr
  | relay q =>
    obtain ⟨r,hr,he⟩ := Option.map_eq_some_iff.mp hs
    obtain ⟨rfl,rfl⟩ := Prod.mk.inj he
    exact q.change hr

end

/-! ### The runs -/

/-- Events arrive in their first control state, a drawn call id is new, and the keys of a call
expire together. -/
def Ordinary (c : Config World Call) : Label Call Choice Env → Prop
  | .spawn q => q.Initial
  | .run p ch => ∀ user d t id, c.pool[p]? = some (.dial (.create user d t id)) →
      ch.setting.callId ∉ c.world.drawn
  | .env (.expireRoom _) => False
  | .env (.expireUser _) => False
  | .env _ => True

/-- A `MULTI` that writes or deletes user keys runs while none of these users is in another
live room. -/
def Undisturbed (c : Config World Call) : Label Call Choice Env → Prop
  | .run p ch => ∀ q callId us, c.pool[p]? = some q → q.touched? ch = some (callId,us) →
      ∀ u ∈ us, ¬ c.world.Busy u callId
  | _ => True

/-- No call has been made. -/
structure Started (w : World) : Prop where
  room : ∀ c, w.room c = none
  userCall : ∀ u, w.userCall u = none
  drawn : w.drawn = []

section

variable {w w' : World} {ch : Choice}

theorem World.oneCall_createCall {callId id : String} {a b : RawId} (h : w.OneCall) :
    (w.createCall callId a b id).OneCall ↔ ∀ u ∈ [a,b], ¬ w.Busy u callId := by
  constructor
  · rintro h' u hu ⟨c,p,hc,hp,hup⟩
    have hlive : (w.createCall callId a b id).parties? c = some p := by
      rw [World.parties?_createCall,if_neg hc]
      exact hp
    have hnew : (w.createCall callId a b id).parties? callId = some ⟨a,b,id⟩ := by
      rw [World.parties?_createCall,if_pos rfl]
    exact h'.disjoint c callId p _ hc hlive hnew u hup hu
  · intro hfree
    have hold : ∀ {c p}, c ≠ callId → (w.createCall callId a b id).parties? c = some p →
        w.parties? c = some p := by
      intro c p hc hp
      rwa [World.parties?_createCall,if_neg hc] at hp
    have hnew : ∀ {p}, (w.createCall callId a b id).parties? callId = some p → p.users = [a,b] := by
      intro p hp
      rw [World.parties?_createCall,if_pos rfl] at hp
      obtain rfl := Option.some.inj hp
      rfl
    have hother : ∀ {c p u}, c ≠ callId → w.parties? c = some p → u ∈ p.users → u ∉ [a,b] :=
      fun hc hp hu hin => hfree _ hin ⟨_,_,hc,hp,hu⟩
    refine ⟨fun c c' p p' hne hp hp' u hu hu' => ?_,fun c p hp u hu => ?_⟩
    · by_cases hc : c = callId
      · subst hc
        have hc' : c' ≠ c := Ne.symm hne
        exact hother hc' (hold hc' hp') hu' (hnew hp ▸ hu)
      · by_cases hc' : c' = callId
        · subst hc'
          exact hother hc (hold hc hp) hu (hnew hp' ▸ hu')
        · exact h.disjoint c c' p p' hne (hold hc hp) (hold hc' hp') u hu hu'
    · rw [World.userCall_createCall]
      by_cases hc : c = callId
      · subst hc
        rw [if_pos (hnew hp ▸ hu)]
      · rw [if_neg (hother hc (hold hc hp) hu)]
        exact h.keys c p (hold hc hp) u hu

theorem World.oneCall_acceptCall {call : ActiveCall} (h : w.OneCall) : (w.acceptCall call).OneCall := by
  refine ⟨by simpa only [World.parties?_acceptCall] using h.disjoint,fun c p hp => ?_⟩
  rw [World.parties?_acceptCall] at hp
  exact h.keys c p hp

theorem World.oneCall_cleanup {callId : String} {data : Option Hash} (h : w.OneCall) :
    (w.cleanup callId data).OneCall ↔ ∀ u ∈ deletedKeys data, ¬ w.Busy u callId := by
  constructor
  · rintro h' u hu ⟨c,p,hc,hp,hup⟩
    have hlive : (w.cleanup callId data).parties? c = some p := by
      rw [World.parties?_cleanup,if_neg hc]
      exact hp
    have hkey := h'.keys c p hlive u hup
    rw [World.userCall_cleanup,if_pos hu] at hkey
    simp at hkey
  · intro hfree
    have hold : ∀ {c p}, (w.cleanup callId data).parties? c = some p →
        c ≠ callId ∧ w.parties? c = some p := by
      intro c p hp
      rw [World.parties?_cleanup] at hp
      exact Option.ite_none_left_eq_some.mp hp
    refine ⟨fun c c' p p' hne hp hp' => h.disjoint c c' p p' hne (hold hp).2 (hold hp').2,
      fun c p hp u hu => ?_⟩
    obtain ⟨hc,hp⟩ := hold hp
    have hkept : u ∉ deletedKeys data := fun hin => hfree u hin ⟨c,p,hc,hp,hu⟩
    rw [World.userCall_cleanup,if_neg hkept]
    exact h.keys c p hp u hu

theorem World.oneCall_expireCall {callId : String} (h : w.OneCall) : (w.expireCall callId).OneCall := by
  have hold : ∀ {c p}, (w.expireCall callId).parties? c = some p → c ≠ callId ∧ w.parties? c = some p := by
    intro c p hp
    rw [World.parties?_expireCall] at hp
    exact Option.ite_none_left_eq_some.mp hp
  refine ⟨fun c c' p p' hne hp hp' => h.disjoint c c' p p' hne (hold hp).2 (hold hp').2,
    fun c p hp u hu => ?_⟩
  obtain ⟨hc,hp⟩ := hold hp
  show (w.userCall u).filter (· ≠ callId) = some c
  rw [h.keys c p hp u hu]
  simp [hc]

/-- A step keeps the users in one call exactly if it is undisturbed. -/
theorem Change.oneCall {q : Call} (h : Change ch w q w') (hw : w.OneCall) :
    w'.OneCall ↔ ∀ callId us, q.touched? ch = some (callId,us) → ∀ u ∈ us, ¬ w.Busy u callId := by
  cases h with
  | kept ht hsame => simp [hsame.oneCall,hw,ht]
  | created hf hsame =>
    rw [hsame.oneCall,World.oneCall_createCall hw]
    simp [Call.touched?,hf]
  | accepted hf hsame =>
    rw [hsame.oneCall]
    simp [World.oneCall_acceptCall hw,Call.touched?,Call.cleanup?]
  | cleaned hf hq hsame =>
    rename_i callId data
    have ht : q.touched? ch = some (callId,deletedKeys data) := by
      cases q <;> simp_all [Call.touched?,Call.cleanup?,Cleanup.touched?]
    rw [hsame.oneCall,World.oneCall_cleanup hw]
    simp [ht]

end

theorem oneCall_next {c d : Config World Call} {l : Label Call Choice Env} (h : c.world.OneCall)
    (hl : Ordinary c l) (hn : system.next c l = some d) : d.world.OneCall ↔ Undisturbed c l := by
  cases l with
  | spawn q =>
    simp only [System.next,Option.some.injEq] at hn
    subst hn
    exact ⟨fun _ => trivial,fun _ => h⟩
  | run p ch =>
    obtain ⟨q,q',w,hq,hs,rfl⟩ := system.next_run hn
    rw [(Call.change hs).oneCall h]
    constructor
    · intro hfree r callId us hr
      obtain rfl := Option.some.inj (hq.symm.trans hr)
      exact hfree callId us
    · intro hfree callId us
      exact hfree q callId us hq
  | env e =>
    refine ⟨fun _ => trivial,fun _ => ?_⟩
    obtain ⟨w,hw,rfl⟩ := system.next_env hn
    have hsame : ∀ {v : World}, some v = some w → c.world.SameKeys v → w.OneCall := by
      intro v hv hsame
      obtain rfl := Option.some.inj hv
      exact hsame.oneCall.mpr h
    cases e with
    | expireCall callId =>
      obtain rfl := Option.some.inj hw
      exact World.oneCall_expireCall h
    | expireRoom callId => exact hl.elim
    | expireUser userId => exact hl.elim
    | presence userId online => exact hsame hw ⟨rfl,rfl,rfl⟩
    | tick ms => exact hsame hw ⟨rfl,rfl,rfl⟩

theorem Started.oneCall {w : World} (h : Started w) : w.OneCall :=
  ⟨fun c _ _ _ _ hp => by simp [World.parties?,h.room c] at hp,
    fun c _ hp => by simp [World.parties?,h.room c] at hp⟩

/-- In every run in which each `MULTI` that writes or deletes user keys finds these users in no
other live room, every user is in at most one live room and the keys name it; and the next step
keeps this exactly if it meets the condition. -/
theorem users_in_one_call (w₀ : World) (c : Config World Call) (h₀ : Started w₀)
    (hr : Run system (fun c l => Ordinary c l ∧ Undisturbed c l) ⟨w₀,[]⟩ c) :
    c.world.OneCall ∧ ∀ l d, Ordinary c l → system.next c l = some d →
      (d.world.OneCall ↔ Undisturbed c l) := by
  have hc : c.world.OneCall := by
    refine hr.invariant (I := fun c => c.world.OneCall) h₀.oneCall ?_
    intro a l b _ ha hl hn
    exact (oneCall_next ha hl.1 hn).mpr hl.2
  exact ⟨hc,fun l d hl hn => oneCall_next hc hl hn⟩

/-! ### Calls that cross -/

def World.busyAmong (w : World) (userId : RawId) (callId : String) : Bool :=
  w.drawn.any fun c => c ≠ callId && (w.parties? c).any fun p => userId ∈ p.users

def ordinary (c : Config World Call) : Label Call Choice Env → Bool
  | .spawn (.dial (.request _ _)) => true
  | .spawn (.hangup (.request _ _)) => true
  | .spawn _ => false
  | .run p ch =>
    match c.pool[p]? with
    | some (.dial (.create _ _ _ _)) => ch.setting.callId ∉ c.world.drawn
    | _ => true
  | .env (.tick _) => true
  | .env _ => false

def undisturbed (c : Config World Call) : Label Call Choice Env → Bool
  | .run p ch =>
    match (c.pool[p]?).bind (·.touched? ch) with
    | some (callId,us) => us.all fun u => !c.world.busyAmong u callId
    | none => true
  | _ => true

theorem ordinary_sound (c : Config World Call) (l : Label Call Choice Env) (h : ordinary c l = true) :
    Ordinary c l := by
  cases l with
  | spawn q =>
    cases q with
    | dial q => cases q <;> first | exact .dial _ _ | simp [ordinary] at h
    | hangup q => cases q <;> first | exact .hangup _ _ | simp [ordinary] at h
    | accept q => simp [ordinary] at h
    | reject q => simp [ordinary] at h
    | disconnect q => simp [ordinary] at h
    | relay q => simp [ordinary] at h
  | run p ch =>
    intro user d t id hq
    simpa [ordinary,hq] using h
  | env e =>
    cases e with
    | tick ms => trivial
    | _ => simp [ordinary] at h

/-- The live rooms are among the calls that have been drawn. -/
def World.Known (w : World) : Prop := ∀ c p, w.parties? c = some p → c ∈ w.drawn

theorem known_next {c d : Config World Call} {l : Label Call Choice Env} (h : c.world.Known)
    (hn : system.next c l = some d) : d.world.Known := by
  have hsame : ∀ {v v' : World}, v.Known → v.SameKeys v' → v'.Known := by
    intro v v' hv hsame c p hp
    rw [hsame.drawn]
    exact hv c p (by rw [← hsame.parties?]; exact hp)
  have hfewer : ∀ {v v' : World} {callId : String}, v.Known → v'.drawn = v.drawn →
      (∀ c, v'.parties? c = if c = callId then none else v.parties? c) → v'.Known := by
    intro v v' callId hv hdrawn hparties c p hp
    rw [hparties] at hp
    rw [hdrawn]
    by_cases hc : c = callId
    · simp [hc] at hp
    · exact hv c p (by simpa [hc] using hp)
  cases l with
  | spawn q =>
    simp only [System.next,Option.some.injEq] at hn
    subst hn
    exact h
  | run p ch =>
    obtain ⟨q,q',w,hq,hs,rfl⟩ := system.next_run hn
    cases Call.change hs with
    | kept _ hkeys => exact hsame h hkeys
    | created _ hkeys =>
      refine hsame (fun c p hp => ?_) hkeys
      rw [World.parties?_createCall] at hp
      by_cases hc : c = ch.setting.callId
      · simp [hc,World.createCall]
      · exact List.mem_append_left _ (h c p (by simpa [hc] using hp))
    | accepted _ hkeys =>
      refine hsame (fun c p hp => ?_) hkeys
      rw [World.parties?_acceptCall] at hp
      exact h c p hp
    | cleaned _ _ hkeys =>
      exact hsame (hfewer h World.drawn_cleanup fun _ => World.parties?_cleanup) hkeys
  | env e =>
    obtain ⟨w,hw,rfl⟩ := system.next_env hn
    cases e with
    | expireCall callId =>
      obtain rfl := Option.some.inj hw
      exact hfewer h rfl fun _ => World.parties?_expireCall
    | expireRoom callId =>
      obtain rfl := Option.some.inj hw
      exact hfewer h rfl fun _ => World.parties?_delRoom
    | expireUser userId =>
      obtain rfl := Option.some.inj hw
      exact h
    | presence userId online =>
      obtain rfl := Option.some.inj hw
      exact h
    | tick ms =>
      obtain rfl := Option.some.inj hw
      exact h

theorem undisturbed_sound {c : Config World Call} {l : Label Call Choice Env} (hknown : c.world.Known)
    (h : undisturbed c l = true) : Undisturbed c l := by
  cases l with
  | spawn => trivial
  | env => trivial
  | run p ch =>
    rintro q callId us hq ht u hu ⟨cId,ps,hne,hp,hin⟩
    have hall : (us.all fun u => !c.world.busyAmong u callId) = true := by
      simpa [undisturbed,hq,ht] using h
    have hfree : c.world.busyAmong u callId = false := by simpa using List.all_eq_true.mp hall u hu
    have hbusy : c.world.busyAmong u callId = true := by
      refine List.any_eq_true.mpr ⟨cId,hknown cId ps hp,?_⟩
      simp [hne,hp,hin]
    rw [hfree] at hbusy
    simp at hbusy

def carefully (c : Config World Call) (l : Label Call Choice Env) : Bool := ordinary c l && undisturbed c l

theorem careful_run {w : World} {c : Config World Call} (h₀ : Started w)
    (h : Run system (fun c l => carefully c l = true) ⟨w,[]⟩ c) :
    Run system (fun c l => Ordinary c l ∧ Undisturbed c l) ⟨w,[]⟩ c := by
  have hstart : w.Known := fun c _ hp => by simp [World.parties?,h₀.room c] at hp
  refine (h.mono_of_invariant (I := fun c => c.world.Known) (fun c l d hc _ hn => known_next hc hn) ?_ hstart).1
  intro c l hc hl
  rw [carefully,Bool.and_eq_true] at hl
  exact ⟨ordinary_sound c l hl.1,undisturbed_sound hc hl.2⟩

def ada : SocketUser := ⟨"00000000-0000-0000-0000-00000000000a","ada"⟩

def bob : SocketUser := ⟨"00000000-0000-0000-0000-00000000000b","bob"⟩

def cyd : SocketUser := ⟨"00000000-0000-0000-0000-00000000000c","cyd"⟩

/-- Three users who are online. -/
def quiet : World :=
  ⟨[⟨ada.id,ada.username⟩,⟨bob.id,bob.username⟩,⟨cyd.id,cyd.username⟩],[],[],[],fun _ => none,
    fun _ => none,fun _ => true,0,[],[]⟩

theorem quiet_started : Started quiet := ⟨fun _ => rfl,fun _ => rfl,rfl⟩

/-- The two calls of the runs and their logs. -/
def firstCall : Choice := ⟨false,⟨true,false,"10000000-0000-0000-0000-000000000001","log-1"⟩⟩

def secondCall : Choice := ⟨false,⟨true,false,"10000000-0000-0000-0000-000000000002","log-2"⟩⟩

def invites (user target : SocketUser) : Label Call Choice Env :=
  .spawn (.dial (.request user (.invite target.id)))

/-- The keys of some calls and some users. -/
def keysOf (cs : List Choice) (us : List SocketUser) (c : Config World Call) :
    List (Option Parties) × List (Option String) :=
  (cs.map fun ch => c.world.parties? ch.setting.callId,us.map fun u => c.world.userCall u.id)

/-- A call that ends before the next one begins. -/
theorem users_in_one_call_quiet :
    Started quiet ∧ ∃ c, Run system (fun c l => Ordinary c l ∧ Undisturbed c l) ⟨quiet,[]⟩ c ∧
      c.world.OneCall ∧ keysOf [firstCall,secondCall] [ada,bob,cyd] c =
        ([none,some ⟨cyd.id,bob.id,"log-2"⟩],
          [none,some secondCall.setting.callId,some secondCall.setting.callId]) := by
  have hchecked : ∀ c l, carefully c l = true → carefully c l = true := fun _ _ h => h
  obtain ⟨c,hc,hf⟩ := Run.exists_of_exec (S := system) (c := ⟨quiet,[]⟩) hchecked
    (invites ada bob::List.replicate 6 (.run 0 firstCall)++
      .spawn (.hangup (.request ada firstCall.setting.callId))::List.replicate 5 (.run 1 firstCall)++
      invites cyd bob::List.replicate 6 (.run 2 secondCall))
    (f := keysOf [firstCall,secondCall] [ada,bob,cyd])
    (v := ([none,some ⟨cyd.id,bob.id,"log-2"⟩],
      [none,some secondCall.setting.callId,some secondCall.setting.callId])) (by decide +kernel)
  have hrun := careful_run quiet_started hc
  exact ⟨quiet_started,c,hrun,(users_in_one_call quiet c quiet_started hrun).1,hf⟩

/-- Two invites cross: both find the target free, and the hang-up of the first call deletes the
key that names the second one. -/
theorem crossing_invites_share_user :
    ∃ c d, Run system Ordinary ⟨quiet,[]⟩ c ∧ Run system Ordinary c d ∧
      keysOf [firstCall,secondCall] [bob] c =
        ([some ⟨ada.id,bob.id,"log-1"⟩,some ⟨cyd.id,bob.id,"log-2"⟩],[some secondCall.setting.callId]) ∧
      keysOf [firstCall,secondCall] [bob] d = ([none,some ⟨cyd.id,bob.id,"log-2"⟩],[none]) ∧
      ¬ c.world.OneCall ∧ ¬ d.world.OneCall := by
  obtain ⟨c,d,hc,hd,hf⟩ := Run.exists_of_exec_twice (S := system) (c := ⟨quiet,[]⟩) ordinary_sound
    ([invites ada bob,invites cyd bob]++List.replicate 5 (.run 0 firstCall)++
      List.replicate 5 (.run 1 secondCall)++[.run 0 firstCall,.run 1 secondCall])
    (.spawn (.hangup (.request ada firstCall.setting.callId))::List.replicate 5 (.run 2 firstCall))
    (f := fun c d => (keysOf [firstCall,secondCall] [bob] c,keysOf [firstCall,secondCall] [bob] d))
    (v := (([some ⟨ada.id,bob.id,"log-1"⟩,some ⟨cyd.id,bob.id,"log-2"⟩],[some secondCall.setting.callId]),
      ([none,some ⟨cyd.id,bob.id,"log-2"⟩],[none]))) (by decide +kernel)
  obtain ⟨hfc,hfd⟩ := Prod.mk.inj hf
  refine ⟨c,d,hc,hd,hfc,hfd,fun hone => ?_,fun hone => ?_⟩
  · simp only [keysOf,List.map_cons,List.map_nil,Prod.mk.injEq,List.cons.injEq] at hfc
    have hboth := hone.disjoint _ _ _ _ (by decide) hfc.1.1 hfc.1.2.1 bob.id (by simp [Parties.users])
    exact hboth (by simp [Parties.users])
  · simp only [keysOf,List.map_cons,List.map_nil,Prod.mk.injEq,List.cons.injEq] at hfd
    have hkey := hone.keys _ _ hfd.1.2.1 bob.id (by simp [Parties.users])
    rw [hfd.2.1] at hkey
    simp at hkey

end Calls

end ZevraServer
