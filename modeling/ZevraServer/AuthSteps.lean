import ZevraServer.Auth

/-!
# What a step of `AuthService` does

The steps of each call listed once, with what the step has found out. The other modules
argue by cases on these lists.
-/

namespace ZevraServer

namespace Auth

variable {C : Crypto} {secret : String} {ch : Choice} {w w' : World}

def LoginFinish.login? : LoginFinish → Option Accepted
  | .prune login => some login
  | .insert login _ _ => some login
  | .online login _ => some login
  | .done login _ => some login
  | .failed login => some login
  | _ => none

/-- The deleted row of a refresh that may still insert the new one. -/
def Refresh.inRotation? : Refresh → Option RefreshToken
  | .received _ record => some record
  | .selected _ record _ => some record
  | .insert _ record _ _ _ => some record
  | _ => none

def Logout.userId : Logout → String
  | .audit u => u
  | .status u => u
  | .delete u => u
  | .offline u => u
  | .done u => u
  | .failed u => u

inductive LoginStart.Edge (C : Crypto) (secret : String) (p : ℕ) (w : World) :
    LoginStart → LoginStart → World → Prop
  | failed (q e) : Edge C secret p w q (.failed e) w
  | selected {username b r} (h : startReply C secret username (byName w.users username) b = some r) :
    Edge C secret p w (.select username b) (.set username (byName w.users username) r.1 r.2) w
  | stored (username user reply state) : Edge C secret p w (.set username user reply state)
    (.done username user reply state) (w.setSrp username (some ⟨SrpState.text state,p⟩))

inductive LoginFinish.Edge (C : Crypto) (ch : Choice) (w : World) : LoginFinish → LoginFinish → World → Prop
  | unread (input e) : Edge C ch w (.consume input) (.refused e) w
  | spoiled (input e) : Edge C ch w (.consume input) (.refused e) (w.setSrp input.username none)
  | consumed {input entry state A} (hentry : w.srp input.username = some entry)
    (hstate : SrpState.ofText entry.text = some state) (hA : Srp.parseClientEphemeral input.A = some A) :
    Edge C ch w (.consume input) (.select input entry.start state A) (w.setSrp input.username none)
  | refused (input start state A e) : Edge C ch w (.select input start state A) (.refused e) w
  | accepted {input start state A r}
    (h : verdict C input state A (stateUser w.users state.userId) = .ok r) :
    Edge C ch w (.select input start state A) (.prune ⟨input,start,state,A,r.1,r.2⟩) w
  | pruned (login) : Edge C ch w (.prune login) (.insert login ch.drawn (w.now+refreshTokenTtlMs))
    (w.prune login.user.id ch.drawn)
  | inserted {login token expiresAt w'}
    (h : w.insertToken ⟨hashRefreshToken C token,login.user.id,expiresAt⟩ = some w') :
    Edge C ch w (.insert login token expiresAt) (.online login token) w'
  | finished (login token) : Edge C ch w (.online login token) (.done login token) w
  | failed {q login} (h : LoginFinish.login? q = some login) : Edge C ch w q (.failed login) w

inductive Refresh.Edge (C : Crypto) (ch : Choice) (w : World) : Refresh → Refresh → World → Prop
  | refused (token e) : Edge C ch w (.delete token) (.refused e) w
  | deleted {token record}
    (h : w.refreshTokens.find? (·.tokenHash = hashRefreshToken C token) = some record) :
    Edge C ch w (.delete token) (.received token record) (w.deleteHash (hashRefreshToken C token))
  | read {token record} (h : ¬ record.expiresAt < w.now) : Edge C ch w (.received token record)
    (.selected token record (byId w.users record.userId)) w
  | switchedOff (token record user) : Edge C ch w (.selected token record user)
    (.failed record invalidRefresh) (w.deleteUser record.userId)
  | pruned {token record user} (h : user.isActive = true) : Edge C ch w (.selected token record (some user))
    (.insert token record user ch.drawn (w.now+refreshTokenTtlMs)) (w.prune record.userId ch.drawn)
  | inserted {token record user issued expiresAt w'}
    (h : w.insertToken ⟨hashRefreshToken C issued,record.userId,expiresAt⟩ = some w') :
    Edge C ch w (.insert token record user issued expiresAt) (.done token record user issued) w'
  | failed {q record} (e) (h : Refresh.inRotation? q = some record) : Edge C ch w q (.failed record e) w

inductive Logout.Edge (ch : Choice) (w : World) : Logout → Logout → World → Prop
  | audited (u) : Edge ch w (.audit u) (.status u) w
  | offline (u) : Edge ch w (.status u) (.delete u) w
  | deleted (u) (h : ch.fails = false) : Edge ch w (.delete u) (.offline u) (w.deleteUser u)
  | finished (u) : Edge ch w (.offline u) (.done u) w
  | failed (q) : Edge ch w q (.failed q.userId) w

theorem LoginStart.edge {p : ℕ} {q q' : LoginStart} (h : q.step C secret p ch w = some (q',w')) :
    Edge C secret p w q q' w' := by
  cases q with
  | select username b =>
    simp only [step] at h
    split at h
    · obtain ⟨rfl,rfl⟩ := Prod.mk.inj (Option.some.inj h)
      exact .failed _ _
    · split at h
      · obtain ⟨rfl,rfl⟩ := Prod.mk.inj (Option.some.inj h)
        exact .failed _ _
      · rename_i r hr
        obtain ⟨rfl,rfl⟩ := Prod.mk.inj (Option.some.inj h)
        exact .selected hr
  | set username user reply state =>
    simp only [step] at h
    split at h
    · obtain ⟨rfl,rfl⟩ := Prod.mk.inj (Option.some.inj h)
      exact .failed _ _
    · obtain ⟨rfl,rfl⟩ := Prod.mk.inj (Option.some.inj h)
      exact .stored _ _ _ _
  | done => simp [step] at h
  | failed => simp [step] at h

theorem LoginFinish.edge {q q' : LoginFinish} (h : q.step C ch w = some (q',w')) : Edge C ch w q q' w' := by
  cases q with
  | consume input =>
    simp only [step] at h
    split at h
    · obtain ⟨rfl,rfl⟩ := Prod.mk.inj (Option.some.inj h)
      exact .unread _ _
    · split at h
      · obtain ⟨rfl,rfl⟩ := Prod.mk.inj (Option.some.inj h)
        exact .unread _ _
      · rename_i entry hentry
        split at h
        · obtain ⟨rfl,rfl⟩ := Prod.mk.inj (Option.some.inj h)
          exact .spoiled _ _
        · rename_i state hstate
          split at h
          · obtain ⟨rfl,rfl⟩ := Prod.mk.inj (Option.some.inj h)
            exact .spoiled _ _
          · rename_i A hA
            obtain ⟨rfl,rfl⟩ := Prod.mk.inj (Option.some.inj h)
            exact .consumed hentry hstate hA
  | select input start state A =>
    simp only [step] at h
    split at h
    · obtain ⟨rfl,rfl⟩ := Prod.mk.inj (Option.some.inj h)
      exact .refused _ _ _ _ _
    · split at h
      · obtain ⟨rfl,rfl⟩ := Prod.mk.inj (Option.some.inj h)
        exact .refused _ _ _ _ _
      · rename_i r hr
        obtain ⟨rfl,rfl⟩ := Prod.mk.inj (Option.some.inj h)
        exact .accepted hr
  | prune login =>
    simp only [step] at h
    split at h
    · obtain ⟨rfl,rfl⟩ := Prod.mk.inj (Option.some.inj h)
      exact .failed rfl
    · obtain ⟨rfl,rfl⟩ := Prod.mk.inj (Option.some.inj h)
      exact .pruned _
  | insert login token expiresAt =>
    simp only [step] at h
    split at h
    · obtain ⟨rfl,rfl⟩ := Prod.mk.inj (Option.some.inj h)
      exact .failed rfl
    · split at h
      · obtain ⟨rfl,rfl⟩ := Prod.mk.inj (Option.some.inj h)
        exact .failed rfl
      · rename_i v hv
        obtain ⟨rfl,rfl⟩ := Prod.mk.inj (Option.some.inj h)
        exact .inserted hv
  | online login token =>
    simp only [step] at h
    split at h
    · obtain ⟨rfl,rfl⟩ := Prod.mk.inj (Option.some.inj h)
      exact .failed rfl
    · obtain ⟨rfl,rfl⟩ := Prod.mk.inj (Option.some.inj h)
      exact .finished _ _
  | done => simp [step] at h
  | refused => simp [step] at h
  | failed => simp [step] at h

theorem Refresh.edge {q q' : Refresh} (h : q.step C ch w = some (q',w')) : Edge C ch w q q' w' := by
  cases q with
  | delete token =>
    simp only [step] at h
    split at h
    · obtain ⟨rfl,rfl⟩ := Prod.mk.inj (Option.some.inj h)
      exact .refused _ _
    · split at h
      · obtain ⟨rfl,rfl⟩ := Prod.mk.inj (Option.some.inj h)
        exact .refused _ _
      · rename_i record hrecord
        obtain ⟨rfl,rfl⟩ := Prod.mk.inj (Option.some.inj h)
        exact .deleted hrecord
  | received token record =>
    simp only [step] at h
    split at h
    · obtain ⟨rfl,rfl⟩ := Prod.mk.inj (Option.some.inj h)
      exact .failed _ rfl
    · rename_i hfresh
      split at h
      · obtain ⟨rfl,rfl⟩ := Prod.mk.inj (Option.some.inj h)
        exact .failed _ rfl
      · obtain ⟨rfl,rfl⟩ := Prod.mk.inj (Option.some.inj h)
        exact .read hfresh
  | selected token record user =>
    simp only [step] at h
    split at h
    · obtain ⟨rfl,rfl⟩ := Prod.mk.inj (Option.some.inj h)
      exact .failed _ rfl
    · split at h
      · obtain ⟨rfl,rfl⟩ := Prod.mk.inj (Option.some.inj h)
        exact .switchedOff _ _ _
      · rename_i u hu
        obtain ⟨hsome,hactive⟩ := Option.filter_eq_some_iff.mp hu
        obtain ⟨rfl,rfl⟩ := Prod.mk.inj (Option.some.inj h)
        subst hsome
        exact .pruned hactive
  | insert token record user issued expiresAt =>
    simp only [step] at h
    split at h
    · obtain ⟨rfl,rfl⟩ := Prod.mk.inj (Option.some.inj h)
      exact .failed _ rfl
    · split at h
      · obtain ⟨rfl,rfl⟩ := Prod.mk.inj (Option.some.inj h)
        exact .failed _ rfl
      · rename_i v hv
        obtain ⟨rfl,rfl⟩ := Prod.mk.inj (Option.some.inj h)
        exact .inserted hv
  | done => simp [step] at h
  | refused => simp [step] at h
  | failed => simp [step] at h

theorem Logout.edge {q q' : Logout} (h : q.step ch w = some (q',w')) : Edge ch w q q' w' := by
  cases q with
  | audit u =>
    obtain ⟨rfl,rfl⟩ := Prod.mk.inj (Option.some.inj h)
    exact .audited u
  | status u =>
    simp only [step] at h
    split at h
    · obtain ⟨rfl,rfl⟩ := Prod.mk.inj (Option.some.inj h)
      exact .failed _
    · obtain ⟨rfl,rfl⟩ := Prod.mk.inj (Option.some.inj h)
      exact .offline u
  | delete u =>
    simp only [step] at h
    split at h
    · obtain ⟨rfl,rfl⟩ := Prod.mk.inj (Option.some.inj h)
      exact .failed _
    · rename_i hfails
      obtain ⟨rfl,rfl⟩ := Prod.mk.inj (Option.some.inj h)
      exact .deleted u (by simpa using hfails)
  | offline u =>
    simp only [step] at h
    split at h
    · obtain ⟨rfl,rfl⟩ := Prod.mk.inj (Option.some.inj h)
      exact .failed _
    · obtain ⟨rfl,rfl⟩ := Prod.mk.inj (Option.some.inj h)
      exact .finished u
  | done => simp [step] at h
  | failed => simp [step] at h

/-- What belongs to sessions is as before. -/
structure SameSessions (w w' : World) : Prop where
  refreshTokens : w'.refreshTokens = w.refreshTokens
  srp : w'.srp = w.srp
  drawn : w'.drawn = w.drawn
  now : w'.now = w.now

theorem SameSessions.refl (w : World) : SameSessions w w := ⟨rfl,rfl,rfl,rfl⟩

theorem World.sameSessions_insertUser {row : Account} (h : w.insertUser row = some w') : SameSessions w w' := by
  simp only [insertUser] at h
  split at h
  · simp at h
  · obtain rfl := Option.some.inj h
    exact ⟨rfl,rfl,rfl,rfl⟩

theorem World.sameSessions_rename {userId username : String} (h : w.rename userId username = some w') :
    SameSessions w w' := by
  simp only [rename] at h
  split at h
  · simp at h
  · obtain rfl := Option.some.inj h
    exact ⟨rfl,rfl,rfl,rfl⟩

theorem Register.sameSessions {q q' : Register} (h : q.step C ch w = some (q',w')) : SameSessions w w' := by
  cases q with
  | select input random =>
    simp only [step] at h
    split at h
    · obtain ⟨_,rfl⟩ := Prod.mk.inj (Option.some.inj h)
      exact .refl _
    · split at h <;> obtain ⟨_,rfl⟩ := Prod.mk.inj (Option.some.inj h) <;> exact .refl _
  | insert input random =>
    simp only [step] at h
    split at h
    · obtain ⟨_,rfl⟩ := Prod.mk.inj (Option.some.inj h)
      exact .refl _
    · split at h
      · obtain ⟨_,rfl⟩ := Prod.mk.inj (Option.some.inj h)
        exact .refl _
      · rename_i v hv
        obtain ⟨_,rfl⟩ := Prod.mk.inj (Option.some.inj h)
        exact World.sameSessions_insertUser hv
  | done => simp [step] at h
  | failed => simp [step] at h

theorem UpdateProfile.sameSessions {q q' : UpdateProfile} (h : q.step ch w = some (q',w')) :
    SameSessions w w' := by
  cases q with
  | select userId username =>
    simp only [step] at h
    split at h
    · obtain ⟨_,rfl⟩ := Prod.mk.inj (Option.some.inj h)
      exact .refl _
    · split at h <;> obtain ⟨_,rfl⟩ := Prod.mk.inj (Option.some.inj h) <;> exact .refl _
  | update userId username =>
    simp only [step] at h
    split at h
    · obtain ⟨_,rfl⟩ := Prod.mk.inj (Option.some.inj h)
      exact .refl _
    · split at h
      · obtain ⟨_,rfl⟩ := Prod.mk.inj (Option.some.inj h)
        exact .refl _
      · rename_i v hv
        have hsame := World.sameSessions_rename hv
        split at h <;> obtain ⟨_,rfl⟩ := Prod.mk.inj (Option.some.inj h) <;> exact hsame
  | done => simp [step] at h
  | failed => simp [step] at h

inductive Call.Edge (C : Crypto) (secret : String) (p : ℕ) (ch : Choice) (w : World) :
    Call → Call → World → Prop
  | loginStart {q q' w'} (h : LoginStart.Edge C secret p w q q' w') :
    Edge C secret p ch w (.loginStart q) (.loginStart q') w'
  | loginFinish {q q' w'} (h : LoginFinish.Edge C ch w q q' w') :
    Edge C secret p ch w (.loginFinish q) (.loginFinish q') w'
  | refreshTokens {q q' w'} (h : Refresh.Edge C ch w q q' w') :
    Edge C secret p ch w (.refreshTokens q) (.refreshTokens q') w'
  | logout {q q' w'} (h : Logout.Edge ch w q q' w') : Edge C secret p ch w (.logout q) (.logout q') w'
  | register {q q' w'} (h : SameSessions w w') : Edge C secret p ch w (.register q) (.register q') w'
  | updateProfile {q q' w'} (h : SameSessions w w') :
    Edge C secret p ch w (.updateProfile q) (.updateProfile q') w'

theorem Call.edge {p : ℕ} {q q' : Call} (h : q.step C secret p ch w = some (q',w')) :
    Edge C secret p ch w q q' w' := by
  cases q with
  | loginStart q =>
    obtain ⟨⟨s,v⟩,hs,he⟩ := Option.map_eq_some_iff.mp h
    obtain ⟨rfl,rfl⟩ := Prod.mk.inj he
    exact .loginStart (LoginStart.edge hs)
  | loginFinish q =>
    obtain ⟨⟨s,v⟩,hs,he⟩ := Option.map_eq_some_iff.mp h
    obtain ⟨rfl,rfl⟩ := Prod.mk.inj he
    exact .loginFinish (LoginFinish.edge hs)
  | refreshTokens q =>
    obtain ⟨⟨s,v⟩,hs,he⟩ := Option.map_eq_some_iff.mp h
    obtain ⟨rfl,rfl⟩ := Prod.mk.inj he
    exact .refreshTokens (Refresh.edge hs)
  | logout q =>
    obtain ⟨⟨s,v⟩,hs,he⟩ := Option.map_eq_some_iff.mp h
    obtain ⟨rfl,rfl⟩ := Prod.mk.inj he
    exact .logout (Logout.edge hs)
  | register q =>
    obtain ⟨⟨s,v⟩,hs,he⟩ := Option.map_eq_some_iff.mp h
    obtain ⟨rfl,rfl⟩ := Prod.mk.inj he
    exact .register (Register.sameSessions hs)
  | updateProfile q =>
    obtain ⟨⟨s,v⟩,hs,he⟩ := Option.map_eq_some_iff.mp h
    obtain ⟨rfl,rfl⟩ := Prod.mk.inj he
    exact .updateProfile (UpdateProfile.sameSessions hs)

end Auth

end ZevraServer
