import ZevraServer.Login
import ZevraServer.Tokens

/-!
# The SRP state is used once

Starts and finishes of logins interleave with renamings, deactivations and expiry. The
number in an SRP entry leads from a finish to the start whose state it has taken, and
no two finishes take the state of one start.
-/

namespace ZevraServer

namespace Auth

open Interleaving

/-- The start whose state a finish has taken, with that state and the parsed `A`. -/
def LoginFinish.taken? : LoginFinish → Option (FinishInput × ℕ × SrpState × ℕ)
  | .select input start state A => some (input,start,state,A)
  | .prune login => some (login.input,login.start,login.state,login.A)
  | .insert login _ _ => some (login.input,login.start,login.state,login.A)
  | .online login _ => some (login.input,login.start,login.state,login.A)
  | .done login _ => some (login.input,login.start,login.state,login.A)
  | .failed login => some (login.input,login.start,login.state,login.A)
  | _ => none

/-- The user and the token of the row a finish has inserted. -/
def LoginFinish.issued? : LoginFinish → Option (String × String)
  | .online login token => some (login.user.id,token)
  | .done login token => some (login.user.id,token)
  | _ => none

/-- The start has stored its state. -/
def StoredBy (c : Config World Call) (start : ℕ) (username : String) (state : SrpState) : Prop :=
  ∃ user reply, c.pool[start]? = some (.loginStart (.done username user reply state))

/-- An entry comes from a start that has stored it, and each start is in at most one place:
under its username, or with one finish. -/
structure Handshakes (c : Config World Call) : Prop where
  stored : ∀ n entry, c.world.srp n = some entry →
    ∃ state, StoredBy c entry.start n state ∧ entry.text = state.text
  taken : ∀ (p : ℕ) q x, c.pool[p]? = some (.loginFinish q) → q.taken? = some x →
    StoredBy c x.2.1 x.1.username x.2.2.1 ∧
      ∀ n entry, c.world.srp n = some entry → entry.start ≠ x.2.1
  once : ∀ (p r : ℕ) q q' x x', c.pool[p]? = some (.loginFinish q) → c.pool[r]? = some (.loginFinish q') →
    q.taken? = some x → q'.taken? = some x' → x.2.1 = x'.2.1 → p = r

section

variable {C : Crypto} {secret : String} {ch : Choice} {w w' : World} {c d : Config World Call}

theorem Call.Initial.not_taken {q : LoginFinish} (h : Call.Initial (.loginFinish q)) : q.taken? = none := by
  cases h
  rfl

/-- What the steps of the other calls and the environment do to the entries. -/
def Shrinks (w w' : World) : Prop := ∀ n entry, w'.srp n = some entry → w.srp n = some entry

theorem StoredBy.next {l : Label Call Choice Env} {start : ℕ} {n : String} {state : SrpState}
    (h : StoredBy c start n state) (hn : (system C secret).next c l = some d) : StoredBy d start n state := by
  obtain ⟨user,reply,hs⟩ := h
  have hrun : Run (system C secret) (fun _ _ => True) c d := (Run.refl c).tail trivial hn
  exact ⟨user,reply,hrun.stays hs fun _ _ => rfl⟩

theorem StoredBy.unique {start : ℕ} {n n' : String} {state state' : SrpState} (h : StoredBy c start n state)
    (h' : StoredBy c start n' state') : n = n' ∧ state = state' := by
  obtain ⟨user,reply,hs⟩ := h
  obtain ⟨user',reply',hs'⟩ := h'
  have he := Option.some.inj (hs.symm.trans hs')
  simp only [Call.loginStart.injEq,LoginStart.done.injEq] at he
  exact ⟨he.1,he.2.2.2⟩

/-- A step that only loses entries, and lets no finish take one, keeps the handshakes. -/
theorem Handshakes.shrink {l : Label Call Choice Env} (h : Handshakes c)
    (hn : (system C secret).next c l = some d) (hsrp : Shrinks c.world d.world)
    (htaken : ∀ (p : ℕ) q x, d.pool[p]? = some (.loginFinish q) → q.taken? = some x →
      ∃ q', c.pool[p]? = some (.loginFinish q') ∧ q'.taken? = some x) : Handshakes d := by
  refine ⟨fun n entry he => ?_,fun p q x hp hx => ?_,fun p r q q' x x' hp hr hx hx' hs => ?_⟩
  · obtain ⟨state,hs,htext⟩ := h.stored n entry (hsrp n entry he)
    exact ⟨state,hs.next hn,htext⟩
  · obtain ⟨q',hq',hx'⟩ := htaken p q x hp hx
    obtain ⟨hs,hno⟩ := h.taken p q' x hq' hx'
    exact ⟨hs.next hn,fun n entry he => hno n entry (hsrp n entry he)⟩
  · obtain ⟨s,hs₁,hx₁⟩ := htaken p q x hp hx
    obtain ⟨s',hs₂,hx₂⟩ := htaken r q' x' hr hx'
    exact h.once p r s s' x x' hs₁ hs₂ hx₁ hx₂ hs

/-- A step of another call leaves what the finishes have taken. -/
theorem taken_of_set {p : ℕ} {q' : Call} (hq' : ∀ s, q' ≠ .loginFinish s) (r : ℕ) (q : LoginFinish)
    (x : FinishInput × ℕ × SrpState × ℕ) (hr : (c.pool.set p q')[r]? = some (.loginFinish q))
    (hx : q.taken? = some x) : ∃ s, c.pool[r]? = some (.loginFinish s) ∧ s.taken? = some x := by
  rcases pool_set hr with ⟨_,he⟩ | ⟨_,hold⟩
  · exact absurd he.symm (hq' q)
  · exact ⟨q,hold,hx⟩

theorem World.shrinks_setSrp (w : World) (n : String) : Shrinks w (w.setSrp n none) := by
  intro m entry he
  by_cases hm : m = n
  · subst hm
    simp [World.setSrp] at he
  · simpa [World.setSrp,Function.update_of_ne hm] using he

theorem Refresh.Edge.srp {q q' : Refresh} (e : Edge C ch w q q' w') : w'.srp = w.srp := by
  cases e with
  | inserted hi => rw [World.insertToken_eq hi]
  | refused => rfl
  | deleted => rfl
  | read => rfl
  | switchedOff => rfl
  | pruned => rfl
  | failed => rfl

theorem Logout.Edge.srp {q q' : Logout} (e : Edge ch w q q' w') : w'.srp = w.srp := by
  cases e <;> rfl

theorem Env.shrinks {e : Env} (he : e.apply w = some w') : Shrinks w w' := by
  cases e with
  | expire username =>
    obtain rfl := Option.some.inj he
    exact w.shrinks_setSrp username
  | setActive =>
    obtain rfl := Option.some.inj he
    exact fun _ _ h => h
  | tick =>
    obtain rfl := Option.some.inj he
    exact fun _ _ h => h

/-- A finish takes a state in its first step, from the entry of its username. -/
theorem LoginFinish.Edge.takes {q q' : LoginFinish} (e : Edge C ch w q q' w') :
    (∃ input entry state A, q = .consume input ∧ w.srp input.username = some entry ∧
      SrpState.ofText entry.text = some state ∧ Srp.parseClientEphemeral input.A = some A ∧
      q' = .select input entry.start state A ∧ w' = w.setSrp input.username none) ∨
    (Shrinks w w' ∧ ∀ x, q'.taken? = some x → q.taken? = some x) := by
  have hsame : Shrinks w w := fun _ _ h => h
  cases e with
  | unread => exact .inr ⟨hsame,by simp [taken?]⟩
  | spoiled => exact .inr ⟨w.shrinks_setSrp _,by simp [taken?]⟩
  | consumed hentry hstate hA => exact .inl ⟨_,_,_,_,rfl,hentry,hstate,hA,rfl,rfl⟩
  | refused => exact .inr ⟨hsame,by simp [taken?]⟩
  | accepted => exact .inr ⟨hsame,fun _ h => h⟩
  | pruned => exact .inr ⟨fun _ _ h => h,fun _ h => h⟩
  | inserted hi =>
    rw [World.insertToken_eq hi]
    exact .inr ⟨fun _ _ h => h,fun _ h => h⟩
  | finished => exact .inr ⟨hsame,fun _ h => h⟩
  | failed hlogin =>
    refine .inr ⟨hsame,fun x hx => ?_⟩
    cases q <;> simp only [login?,reduceCtorEq,Option.some.injEq] at hlogin <;> subst hlogin <;> exact hx

/-- A start stores its state under its username, in place of what was there. -/
theorem Handshakes.store {p : ℕ} {n : String} {user : Option Account} {reply : StartReply} {state : SrpState}
    (h : Handshakes c) (hq : c.pool[p]? = some (.loginStart (.set n user reply state)))
    (hn : (system C secret).next c (.run p ch) =
      some ⟨c.world.setSrp n (some ⟨state.text,p⟩),c.pool.set p (.loginStart (.done n user reply state))⟩) :
    Handshakes ⟨c.world.setSrp n (some ⟨state.text,p⟩),
      c.pool.set p (.loginStart (.done n user reply state))⟩ := by
  have hlt := (List.getElem?_eq_some_iff.mp hq).1
  have hself : StoredBy ⟨c.world.setSrp n (some ⟨state.text,p⟩),
      c.pool.set p (.loginStart (.done n user reply state))⟩ p n state :=
    ⟨user,reply,List.getElem?_set_self hlt⟩
  have hnot : ∀ {m state'}, ¬ StoredBy c p m state' := by
    rintro m state' ⟨user',reply',hs⟩
    have he := Option.some.inj (hs.symm.trans hq)
    simp at he
  have hold : ∀ (r : ℕ) q x, (c.pool.set p (.loginStart (.done n user reply state)))[r]? =
      some (.loginFinish q) → q.taken? = some x → ∃ s, c.pool[r]? = some (.loginFinish s) ∧ s.taken? = some x :=
    taken_of_set (by simp)
  refine ⟨fun m entry he => ?_,fun r q x hr hx => ?_,fun r r' q q' x x' hr hr' hx hx' hs => ?_⟩
  · by_cases hm : m = n
    · subst hm
      obtain rfl : ⟨state.text,p⟩ = entry := by simpa [World.setSrp] using he
      exact ⟨state,hself,rfl⟩
    · have he' : c.world.srp m = some entry := by simpa [World.setSrp,Function.update_of_ne hm] using he
      obtain ⟨s,hs,htext⟩ := h.stored m entry he'
      exact ⟨s,hs.next hn,htext⟩
  · obtain ⟨s,hs,hx'⟩ := hold r q x hr hx
    obtain ⟨hstored,hno⟩ := h.taken r s x hs hx'
    refine ⟨hstored.next hn,fun m entry he => ?_⟩
    by_cases hm : m = n
    · subst hm
      obtain rfl : ⟨state.text,p⟩ = entry := by simpa [World.setSrp] using he
      rintro rfl
      exact hnot hstored
    · exact hno m entry (by simpa [World.setSrp,Function.update_of_ne hm] using he)
  · obtain ⟨s,hs₁,hx₁⟩ := hold r q x hr hx
    obtain ⟨s',hs₂,hx₂⟩ := hold r' q' x' hr' hx'
    exact h.once r r' s s' x x' hs₁ hs₂ hx₁ hx₂ hs

/-- A finish takes the entry of its username away. -/
theorem Handshakes.take {p A : ℕ} {input : FinishInput} {entry : SrpEntry} {state : SrpState}
    (h : Handshakes c) (hq : c.pool[p]? = some (.loginFinish (.consume input)))
    (hentry : c.world.srp input.username = some entry) (hstate : SrpState.ofText entry.text = some state)
    (hn : (system C secret).next c (.run p ch) = some ⟨c.world.setSrp input.username none,
      c.pool.set p (.loginFinish (.select input entry.start state A))⟩) :
    Handshakes ⟨c.world.setSrp input.username none,
      c.pool.set p (.loginFinish (.select input entry.start state A))⟩ := by
  obtain ⟨state',hstored,htext⟩ := h.stored _ _ hentry
  obtain rfl : state' = state := by simpa [htext] using hstate
  have hshrink := c.world.shrinks_setSrp input.username
  have hfinish : ∀ (r : ℕ) q x, (c.pool.set p (.loginFinish (.select input entry.start state' A)))[r]? =
      some (.loginFinish q) → q.taken? = some x →
      r = p ∧ x = (input,entry.start,state',A) ∨
        r ≠ p ∧ c.pool[r]? = some (.loginFinish q) ∧ q.taken? = some x := by
    intro r q x hr hx
    rcases pool_set hr with ⟨rfl,he⟩ | ⟨hne,hold⟩
    · obtain rfl : q = .select input entry.start state' A := by simpa using he
      exact .inl ⟨rfl,(Option.some.inj hx).symm⟩
    · exact .inr ⟨hne,hold,hx⟩
  have hapart : ∀ (r : ℕ) q x, c.pool[r]? = some (.loginFinish q) → q.taken? = some x →
      x.2.1 ≠ entry.start := fun r q x hr hx he =>
    (h.taken r q x hr hx).2 _ _ hentry he.symm
  refine ⟨fun m e he => ?_,fun r q x hr hx => ?_,fun r r' q q' x x' hr hr' hx hx' hs => ?_⟩
  · obtain ⟨s,hs,ht⟩ := h.stored m e (hshrink m e he)
    exact ⟨s,hs.next hn,ht⟩
  · rcases hfinish r q x hr hx with ⟨rfl,rfl⟩ | ⟨_,hold,hx⟩
    · refine ⟨hstored.next hn,fun m e he hsame => ?_⟩
      obtain ⟨s,hs,_⟩ := h.stored m e (hshrink m e he)
      have hstart : e.start = entry.start := hsame
      rw [hstart] at hs
      obtain ⟨rfl,_⟩ := hstored.unique hs
      simp [World.setSrp] at he
    · obtain ⟨hs,hno⟩ := h.taken r q x hold hx
      exact ⟨hs.next hn,fun m e he => hno m e (hshrink m e he)⟩
  · rcases hfinish r q x hr hx with ⟨rfl,rfl⟩ | ⟨_,hold,hx⟩
    · rcases hfinish r' q' x' hr' hx' with ⟨rfl,rfl⟩ | ⟨_,hold',hx'⟩
      · rfl
      · exact absurd hs.symm (hapart r' q' x' hold' hx')
    · rcases hfinish r' q' x' hr' hx' with ⟨rfl,rfl⟩ | ⟨_,hold',hx'⟩
      · exact absurd hs (hapart r q x hold hx)
      · exact h.once r r' q q' x x' hold hold' hx hx' hs

theorem Handshakes.next {l : Label Call Choice Env} (h : Handshakes c) (ha : Arrives c l)
    (hn : (system C secret).next c l = some d) : Handshakes d := by
  have hn' := hn
  cases l with
  | spawn q =>
    simp only [System.next,Option.some.injEq] at hn
    subst hn
    refine h.shrink hn' (fun _ _ he => he) fun p s x hp hx => ?_
    rcases pool_append hp with ⟨_,hold⟩ | ⟨_,rfl⟩
    · exact ⟨s,hold,hx⟩
    · rw [Call.Initial.not_taken ha] at hx
      simp at hx
  | env e =>
    obtain ⟨w,hw,rfl⟩ := (system C secret).next_env hn
    exact h.shrink hn' (Env.shrinks hw) fun p s x hp hx => ⟨s,hp,hx⟩
  | run p ch =>
    obtain ⟨q,q',w,hq,hs,rfl⟩ := (system C secret).next_run hn
    have hcall : Call.step C secret p q ch c.world = some (q',w) := hs
    cases Call.edge hcall with
    | loginStart e =>
      cases e with
      | failed => exact h.shrink hn' (fun _ _ he => he) (taken_of_set (by simp))
      | selected => exact h.shrink hn' (fun _ _ he => he) (taken_of_set (by simp))
      | stored => exact h.store hq hn'
    | loginFinish e =>
      rename_i q q'
      rcases e.takes with ⟨input,entry,state,A,rfl,hentry,hstate,_,rfl,rfl⟩ | ⟨hsrp,hkept⟩
      · exact h.take hq hentry hstate hn'
      · refine h.shrink hn' hsrp fun r s x hr hx => ?_
        rcases pool_set hr with ⟨rfl,he⟩ | ⟨_,hold⟩
        · obtain rfl : s = q' := by simpa using he
          exact ⟨q,hq,hkept x hx⟩
        · exact ⟨s,hold,hx⟩
    | refreshTokens e => exact h.shrink hn' (fun _ _ he => e.srp ▸ he) (taken_of_set (by simp))
    | logout e => exact h.shrink hn' (fun _ _ he => e.srp ▸ he) (taken_of_set (by simp))
    | register e => exact h.shrink hn' (fun _ _ he => e.srp ▸ he) (taken_of_set (by simp))
    | updateProfile e => exact h.shrink hn' (fun _ _ he => e.srp ▸ he) (taken_of_set (by simp))

/-! ### What a call has seen -/

theorem startReply_eq {n : String} {user : Option Account} {b : ℕ} {r : StartReply × SrpState}
    (h : startReply C secret n user b = some r) :
    r.2.b = b ∧ r.2.B < Srp.N ∧ r.1.username = n ∧ bigInt? r.1.B = some r.2.B ∧
      ∀ id, r.2.userId = some id → ∃ u, user = some u ∧ u.isActive = true ∧ u.id = id := by
  obtain ⟨creds,hcreds,rfl⟩ := Option.map_eq_some_iff.mp h
  refine ⟨rfl,generateServerEphemeral_lt _ _,rfl,bigInt?_bigintToHex _,fun id hid => ?_⟩
  cases user with
  | none =>
    obtain rfl := Option.some.inj hcreds
    simp at hid
  | some u =>
    by_cases hactive : u.isActive = true
    · simp only [startCredentials,hactive,if_true] at hcreds
      obtain ⟨v,_,rfl⟩ := Option.map_eq_some_iff.mp hcreds
      exact ⟨u,rfl,hactive,Option.some.inj hid⟩
    · simp only [startCredentials,hactive] at hcreds
      obtain rfl := Option.some.inj hcreds
      simp at hid

theorem verdict_ok {input : FinishInput} {state : SrpState} {A : ℕ} {user : Option Account}
    {r : Account × Srp.Outcome} (h : verdict C input state A user = .ok r) :
    user = some r.1 ∧ r.1.isActive = true ∧ r.1.username = input.username ∧
      ∃ v, bigInt? r.1.srpVerifier = some v ∧
        Srp.verifyClientProof C A input.M1 state.b state.B v r.1.srpSalt = r.2 ∧ r.2.valid = true := by
  cases user with
  | none => simp [verdict] at h
  | some u =>
    by_cases hu : u.isActive = true ∧ u.username = input.username
    · simp only [verdict,if_pos hu] at h
      cases hv : bigInt? u.srpVerifier with
      | none => simp [hv] at h
      | some v =>
        simp only [hv] at h
        by_cases hvalid : (Srp.verifyClientProof C A input.M1 state.b state.B v u.srpSalt).valid = true
        · rw [if_pos hvalid] at h
          obtain rfl := Except.ok.inj h
          exact ⟨rfl,hu.1,hu.2,v,hv,rfl,hvalid⟩
        · rw [if_neg hvalid] at h
          simp at h
    · simp only [verdict,if_neg hu] at h
      simp at h

/-- The start read the row of its username and drew the secret of its state. -/
def StartSaw (C : Crypto) (secret : String) (w₀ : World) (d : Config World Call) (p : ℕ) (n : String)
    (user : Option Account) (reply : StartReply) (state : SrpState) : Prop :=
  startReply C secret n user state.b = some (reply,state) ∧
    Earlier (system C secret) Arrives ⟨w₀,[]⟩ d fun a =>
      a.pool[p]? = some (.loginStart (.select n state.b)) ∧ byName a.world.users n = user

theorem start_saw {w₀ : World} (hr : Run (system C secret) Arrives ⟨w₀,[]⟩ d) :
    ∀ p q, d.pool[p]? = some q → ∀ n user reply state,
      q = .loginStart (.set n user reply state) ∨ q = .loginStart (.done n user reply state) →
      StartSaw C secret w₀ d p n user reply state := by
  refine hr.each (I := fun d p q => ∀ n user reply state,
    q = .loginStart (.set n user reply state) ∨ q = .loginStart (.done n user reply state) →
    StartSaw C secret w₀ d p n user reply state) (by simp) ?_ ?_ ?_
  · rintro a q _ hq n user reply state (rfl | rfl)
    · cases (show Call.Initial _ from hq)
    · cases (show Call.Initial _ from hq)
  · intro a p q ch q' w hrun hl hq hI hs n user reply state hq'
    have hnext : (system C secret).next a (.run p ch) = some ⟨w,a.pool.set p q'⟩ := by
      simp only [System.next,hq,hs,Option.map_some]
    have hcall : Call.step C secret p q ch a.world = some (q',w) := hs
    cases Call.edge hcall with
    | loginStart e =>
      cases e with
      | failed => simp at hq'
      | selected hreply =>
        rename_i n' b r
        simp only [Call.loginStart.injEq,LoginStart.set.injEq,reduceCtorEq,or_false] at hq'
        obtain ⟨rfl,rfl,rfl,rfl⟩ := hq'
        obtain rfl := (startReply_eq hreply).1
        exact ⟨hreply,Earlier.of_next hrun hl hnext ⟨hq,rfl⟩⟩
      | stored n' user' reply' state' =>
        simp only [Call.loginStart.injEq,LoginStart.done.injEq,reduceCtorEq,false_or] at hq'
        obtain ⟨rfl,rfl,rfl,rfl⟩ := hq'
        obtain ⟨hreply,hsaw⟩ := hI _ _ _ _ (.inl rfl)
        exact ⟨hreply,hsaw.next hl hnext⟩
    | loginFinish => simp at hq'
    | refreshTokens => simp at hq'
    | logout => simp at hq'
    | register => simp at hq'
    | updateProfile => simp at hq'
  · intro a l b p q _ hl hn hI n user reply state hq
    obtain ⟨hreply,hsaw⟩ := hI n user reply state hq
    exact ⟨hreply,hsaw.next hl hn⟩

/-- The finish took the state when its start had stored it, read the account and accepted the
proof, and inserted the token. -/
structure FinishSaw (C : Crypto) (secret : String) (w₀ : World) (d : Config World Call) (p : ℕ)
    (q : LoginFinish) : Prop where
  took : ∀ input start state A, q.taken? = some (input,start,state,A) →
    Srp.parseClientEphemeral input.A = some A ∧
      Earlier (system C secret) Arrives ⟨w₀,[]⟩ d fun a =>
        a.pool[p]? = some (.loginFinish (.consume input)) ∧ StoredBy a start input.username state
  read : ∀ login, q.login? = some login →
    Earlier (system C secret) Arrives ⟨w₀,[]⟩ d fun a =>
      a.pool[p]? = some (.loginFinish (.select login.input login.start login.state login.A)) ∧
        verdict C login.input login.state login.A (stateUser a.world.users login.state.userId) =
          .ok (login.user,login.outcome)
  issued : ∀ id token, q.issued? = some (id,token) →
    Earlier (system C secret) Arrives ⟨w₀,[]⟩ d fun a =>
      ∃ t ∈ a.world.refreshTokens, t.userId = id ∧ t.tokenHash = hashRefreshToken C token

theorem handshakes_of_run {w₀ : World} (h₀ : ∀ n, w₀.srp n = none)
    (hr : Run (system C secret) Arrives ⟨w₀,[]⟩ d) : Handshakes d := by
  refine hr.invariant ⟨?_,by simp,by simp⟩ fun a l b _ ha hl hn => ha.next hl hn
  intro n entry he
  rw [h₀ n] at he
  simp at he

theorem FinishSaw.next {w₀ : World} {l : Label Call Choice Env} {p : ℕ} {q : LoginFinish}
    (h : FinishSaw C secret w₀ c p q) (hl : Arrives c l) (hn : (system C secret).next c l = some d) :
    FinishSaw C secret w₀ d p q :=
  ⟨fun input start state A hx => ⟨(h.took input start state A hx).1,(h.took input start state A hx).2.next hl hn⟩,
    fun login hlogin => (h.read login hlogin).next hl hn,
    fun id token hi => (h.issued id token hi).next hl hn⟩

theorem finish_saw {w₀ : World} (h₀ : ∀ n, w₀.srp n = none)
    (hr : Run (system C secret) Arrives ⟨w₀,[]⟩ d) :
    ∀ p q, d.pool[p]? = some q → ∀ q', q = .loginFinish q' → FinishSaw C secret w₀ d p q' := by
  refine hr.each (I := fun d p q => ∀ q', q = .loginFinish q' → FinishSaw C secret w₀ d p q')
    (by simp) ?_ ?_ ?_
  · rintro a q _ hq q' rfl
    cases (show Call.Initial _ from hq)
    exact ⟨by simp [LoginFinish.taken?],by simp [LoginFinish.login?],by simp [LoginFinish.issued?]⟩
  · rintro a p q ch q' w hrun hl hq hI hs q'' rfl
    have hnext : (system C secret).next a (.run p ch) = some ⟨w,a.pool.set p (.loginFinish q'')⟩ := by
      simp only [System.next,hq,hs,Option.map_some]
    have hcall : Call.step C secret p q ch a.world = some (.loginFinish q'',w) := hs
    cases Call.edge hcall with
    | loginFinish e =>
      rename_i q
      have hsaw := (hI q rfl).next hl hnext
      have htook := hsaw.took
      have hread := hsaw.read
      cases e with
      | unread => exact ⟨by simp [LoginFinish.taken?],by simp [LoginFinish.login?],by simp [LoginFinish.issued?]⟩
      | spoiled => exact ⟨by simp [LoginFinish.taken?],by simp [LoginFinish.login?],by simp [LoginFinish.issued?]⟩
      | consumed hentry hstate hA =>
        rename_i input entry state A
        refine ⟨fun input' start state' A' hx => ?_,by simp [LoginFinish.login?],by simp [LoginFinish.issued?]⟩
        simp only [LoginFinish.taken?,Option.some.injEq,Prod.mk.injEq] at hx
        obtain ⟨rfl,rfl,rfl,rfl⟩ := hx
        obtain ⟨state',hstored,htext⟩ := (handshakes_of_run h₀ hrun).stored _ _ hentry
        obtain rfl : state' = state := by simpa [htext] using hstate
        exact ⟨hA,Earlier.of_next hrun hl hnext ⟨hq,hstored⟩⟩
      | refused => exact ⟨by simp [LoginFinish.taken?],by simp [LoginFinish.login?],by simp [LoginFinish.issued?]⟩
      | accepted hverdict =>
        refine ⟨htook,fun login hlogin => ?_,by simp [LoginFinish.issued?]⟩
        obtain rfl := Option.some.inj hlogin
        exact Earlier.of_next hrun hl hnext ⟨hq,hverdict⟩
      | pruned => exact ⟨htook,hread,by simp [LoginFinish.issued?]⟩
      | inserted hi =>
        rename_i login token expiresAt
        refine ⟨htook,hread,fun id token' hid => ?_⟩
        simp only [LoginFinish.issued?,Option.some.injEq,Prod.mk.injEq] at hid
        obtain ⟨rfl,rfl⟩ := hid
        refine ⟨_,hrun.tail hl hnext,.refl _,⟨hashRefreshToken C token,login.user.id,expiresAt⟩,?_,rfl,rfl⟩
        rw [World.insertToken_eq hi]
        exact List.mem_append_right _ (List.mem_singleton_self _)
      | finished => exact ⟨htook,hread,hsaw.issued⟩
      | failed hlogin =>
        refine ⟨fun input start state A hx => ?_,fun login hl' => ?_,by simp [LoginFinish.issued?]⟩
        · cases q <;> simp only [LoginFinish.login?,reduceCtorEq,Option.some.injEq] at hlogin <;>
            subst hlogin <;> exact htook _ _ _ _ hx
        · exact hread login (hlogin.trans hl')
  · rintro a l b p q _ hl hn hI q' rfl
    exact (hI q' rfl).next hl hn

end

/-- What a successful finish has to do with the start whose state it took. -/
structure Authentic (C : Crypto) (secret : String) (w₀ : World) (d : Config World Call) (p : ℕ)
    (login : Accepted) (token : String) (user : Account) (reply : StartReply) : Prop where
  start : d.pool[login.start]? =
    some (.loginStart (.done login.input.username (some user) reply login.state))
  earlier : Earlier (system C secret) Arrives ⟨w₀,[]⟩ d fun a =>
    a.pool[p]? = some (.loginFinish (.consume login.input)) ∧
      StoredBy a login.start login.input.username login.state
  saw : StartSaw C secret w₀ d login.start login.input.username (some user) reply login.state
  active : user.isActive = true
  resolved : login.state.userId = some user.id
  parsed : Srp.parseClientEphemeral login.input.A = some login.A
  verified : ∃ v, bigInt? login.user.srpVerifier = some v ∧
    Srp.verifyClientProof C login.A login.input.M1 login.state.b login.state.B v login.user.srpSalt =
      login.outcome ∧ login.outcome.valid = true
  read : Earlier (system C secret) Arrives ⟨w₀,[]⟩ d fun a =>
    a.pool[p]? = some (.loginFinish (.select login.input login.start login.state login.A)) ∧
      byId a.world.users user.id = some login.user ∧ login.user.isActive = true ∧
      login.user.username = login.input.username
  issued : Earlier (system C secret) Arrives ⟨w₀,[]⟩ d fun a =>
    ∃ t ∈ a.world.refreshTokens, t.userId = user.id ∧ t.tokenHash = hashRefreshToken C token

section

variable {C : Crypto} {secret : String} {w₀ : World} {d : Config World Call}

theorem stateUser_eq {users : List Account} {userId : Option String} {u : Account}
    (h : stateUser users userId = some u) : ∃ id, userId = some id ∧ byId users id = some u ∧ u.id = id := by
  cases userId with
  | none => simp [stateUser] at h
  | some id =>
    simp only [stateUser] at h
    split at h
    · simp at h
    · exact ⟨id,rfl,h,by simpa using List.find?_some h⟩

theorem authentic_of_done (h₀ : ∀ n, w₀.srp n = none) (hr : Run (system C secret) Arrives ⟨w₀,[]⟩ d)
    {p : ℕ} {login : Accepted} {token : String}
    (hp : d.pool[p]? = some (.loginFinish (.done login token))) :
    ∃ user reply, Authentic C secret w₀ d p login token user reply := by
  have hsaw := finish_saw h₀ hr p _ hp _ rfl
  obtain ⟨hparsed,hearlier⟩ := hsaw.took _ _ _ _ rfl
  obtain ⟨a,ha,had,hselect,hverdict⟩ := hsaw.read login rfl
  obtain ⟨hfound,hactive,hname,v,hv,hproof,hvalid⟩ := verdict_ok hverdict
  obtain ⟨id,hid,hbyId,hu⟩ := stateUser_eq hfound
  obtain ⟨user?,reply,hstart⟩ := ((handshakes_of_run h₀ hr).taken p _ _ hp rfl).1
  have hstartSaw := start_saw hr _ _ hstart _ _ _ _ (.inr rfl)
  obtain ⟨user,rfl,huser,rfl⟩ := (startReply_eq hstartSaw.1).2.2.2.2 id hid
  refine ⟨user,reply,hstart,hearlier,hstartSaw,huser,hid,hparsed,⟨v,hv,hproof,hvalid⟩,
    ⟨a,ha,had,hselect,hbyId,hactive,hname⟩,?_⟩
  rw [← hu]
  exact hsaw.issued login.user.id token rfl

theorem Authentic.B_lt {p : ℕ} {login : Accepted} {token : String} {user : Account} {reply : StartReply}
    (h : Authentic C secret w₀ d p login token user reply) : login.state.B < Srp.N :=
  (startReply_eq h.saw.1).2.1

end

/-- Successful finishes took the states of different starts. The start had stored its state under the
username before the finish took it, drew the `b` and `B` the proof is checked against, and had
read an active account; the finish reads that account, still active and of that name, and
issues its token for it. Two successes with one `A` and one `M1` need one `B` twice or a
collision of SHA-256. -/
theorem login_state_single_use (C : Crypto) (secret : String) (w₀ : World) (d : Config World Call)
    (h₀ : ∀ n, w₀.srp n = none) (hr : Run (system C secret) Arrives ⟨w₀,[]⟩ d) :
    (∀ (p r : ℕ) (login login' : Accepted) (token token' : String),
      d.pool[p]? = some (.loginFinish (.done login token)) →
      d.pool[r]? = some (.loginFinish (.done login' token')) → login.start = login'.start → p = r) ∧
    (∀ (p : ℕ) (login : Accepted) (token : String),
      d.pool[p]? = some (.loginFinish (.done login token)) →
      ∃ user reply, Authentic C secret w₀ d p login token user reply) ∧
    ∀ (p r : ℕ) (login login' : Accepted) (token token' : String), p ≠ r →
      d.pool[p]? = some (.loginFinish (.done login token)) →
      d.pool[r]? = some (.loginFinish (.done login' token')) →
      login.input.A = login'.input.A → login.input.M1 = login'.input.M1 →
      login.state.B = login'.state.B ∨ ∃ x y, x ≠ y ∧ (C.sha256 x).bytes = (C.sha256 y).bytes := by
  refine ⟨?_,fun p login token hp => authentic_of_done h₀ hr hp,?_⟩
  · intro p r login login' token token' hp hr' hstart
    exact (handshakes_of_run h₀ hr).once p r _ _ _ _ hp hr' rfl rfl hstart
  · intro p r login login' token token' _ hp hr' hA hM1
    obtain ⟨user,reply,h⟩ := authentic_of_done h₀ hr hp
    obtain ⟨user',reply',h'⟩ := authentic_of_done h₀ hr hr'
    have hparsed : login'.A = login.A := by
      have hsame := h'.parsed
      rw [← hA,h.parsed] at hsame
      exact (Option.some.inj hsame).symm
    obtain ⟨v,_,hproof,hvalid⟩ := h.verified
    obtain ⟨v',_,hproof',hvalid'⟩ := h'.verified
    rw [← hproof] at hvalid
    rw [← hproof',hparsed,← hM1] at hvalid'
    obtain ⟨K,hK⟩ := Srp.valid_verifyClientProof hvalid
    obtain ⟨K',hK'⟩ := Srp.valid_verifyClientProof hvalid'
    by_cases hB : login.state.B = login'.state.B
    · exact .inl hB
    · exact .inr (Srp.collision_of_expectedM1 h.B_lt h'.B_lt hB (hK.symm.trans hK'))

theorem Call.done_of_outcome {q : Call} (h : q.outcome = 1) :
    ∃ login token, q = .loginFinish (.done login token) := by
  cases q with
  | loginFinish q => cases q <;> first | exact ⟨_,_,rfl⟩ | simp [outcome] at h
  | refreshTokens q => cases q <;> simp [outcome] at h
  | logout q => cases q <;> simp [outcome] at h
  | loginStart => simp [outcome] at h
  | register => simp [outcome] at h
  | updateProfile => simp [outcome] at h

theorem login_state_single_use_ada :
    (∀ n, home.srp n = none) ∧ ∃ d, Run (system byLength "secret") Arrives ⟨home,[]⟩ d ∧
      ∃ login token user reply, d.pool[1]? = some (.loginFinish (.done login token)) ∧
        Authentic byLength "secret" home d 1 login token user reply := by
  obtain ⟨d,hd,hf⟩ := Run.exists_of_exec (S := system byLength "secret") (c := ⟨home,[]⟩)
    (freshTokens_sound byLength "secret") redeemedTwice (f := fun d => (d.pool[1]?).map Call.outcome)
    (v := some 1) (by decide +kernel)
  obtain ⟨q,hq,hout⟩ := Option.map_eq_some_iff.mp hf
  obtain ⟨login,token,rfl⟩ := Call.done_of_outcome hout
  have hstart : ∀ n, home.srp n = none := fun _ => rfl
  have hr : Run (system byLength "secret") Arrives ⟨home,[]⟩ d := hd.mono fun _ _ h => h.1
  obtain ⟨user,reply,hauth⟩ := (login_state_single_use byLength "secret" home d hstart hr).2.1 1 login token hq
  exact ⟨hstart,d,hr,login,token,user,reply,hq,hauth⟩

end Auth

end ZevraServer
