import ZevraServer.AuthSteps
import ZevraServer.Login
import ZevraServer.Pools

/-!
# Refresh tokens

A refresh deletes the row of its token and inserts the row of a new one later. Here a
token is redeemed at most once, the tokens of a user never outnumber the logins, and a
logout ends every session of the user if no refresh of the user is between its two
statements when the logout deletes.
-/

namespace ZevraServer

namespace Auth

open Interleaving

def World.rowsOf (w : World) (userId : String) : ℕ := w.refreshTokens.countP (·.userId = userId)

def World.rowsWith (w : World) (hash : String) : ℕ := w.refreshTokens.countP (·.tokenHash = hash)

/-- The token a call has drawn and not inserted. -/
def Call.pending? : Call → Option String
  | .loginFinish (.insert _ token _) => some token
  | .refreshTokens (.insert _ _ _ issued _) => some issued
  | _ => none

/-- The row a refresh has deleted. -/
def Call.record? : Call → Option RefreshToken
  | .refreshTokens (.done _ record _ _) => some record
  | .refreshTokens (.failed record _) => some record
  | .refreshTokens q => q.inRotation?
  | _ => none

/-- The user of an accepted login. -/
def Call.loggedIn? : Call → Option String
  | .loginFinish q => q.login?.map (·.user.id)
  | _ => none

/-- The user of a refresh that has deleted its row and not inserted the new one, be it still
under way or failed. -/
def Call.rotating? : Call → Option String
  | .refreshTokens (.failed record _) => some record.userId
  | .refreshTokens q => q.inRotation?.map (·.userId)
  | _ => none

/-- The user of an accepted login whose row is not inserted yet. -/
def Call.entering? : Call → Option String
  | .loginFinish (.prune login) => some login.user.id
  | .loginFinish (.insert login _ _) => some login.user.id
  | _ => none

/-- 1 for the calls with the given user. -/
def one (f : Call → Option String) (userId : String) (q : Call) : ℕ :=
  if f q = some userId then 1 else 0

section

variable (C : Crypto) (secret : String)

/-- How often a hash belongs to a token the call will insert or has deleted. -/
def holds (hash : String) (q : Call) : ℕ :=
  (if q.pending?.map (hashRefreshToken C) = some hash then 1 else 0)+
    if q.record?.map (·.tokenHash) = some hash then 1 else 0

/-- The drawn tokens have different hashes: the values are fresh, and SHA-256 is injective
on them. -/
def FreshTokens (c : Config World Call) (l : Label Call Choice Env) : Prop :=
  Arrives c l ∧ ∀ d, (system C secret).next c l = some d → (d.world.drawn.map (hashRefreshToken C)).Nodup

end

section

variable {C : Crypto} {secret : String} {ch : Choice} {w w' : World} {t : RefreshToken} {u h : String}

/-! ### The table -/

theorem World.insertToken_eq (hi : w.insertToken t = some w') :
    w' = { w with refreshTokens := w.refreshTokens++[t] } := by
  simp only [insertToken] at hi
  split at hi
  · simp at hi
  · exact (Option.some.inj hi).symm

theorem World.rowsOf_insertToken (hi : w.insertToken t = some w') :
    w'.rowsOf u = w.rowsOf u+if t.userId = u then 1 else 0 := by
  rw [World.insertToken_eq hi]
  simp [rowsOf,List.countP_append,List.countP_singleton]

theorem World.rowsWith_insertToken (hi : w.insertToken t = some w') :
    w'.rowsWith h = w.rowsWith h+if t.tokenHash = h then 1 else 0 := by
  rw [World.insertToken_eq hi]
  simp [rowsWith,List.countP_append,List.countP_singleton]

theorem countP_filter_le {α : Type} (p f : α → Bool) (l : List α) :
    (l.filter f).countP p ≤ l.countP p := (List.filter_sublist).countP_le

/-- The row a refresh deletes is counted out. -/
theorem countP_filter_of_find? {α : Type} {l : List α} {f p : α → Bool} {a : α} (hf : l.find? f = some a) :
    (l.filter fun x => !f x).countP p+(if p a then 1 else 0) ≤ l.countP p := by
  have hmem : a ∈ l := List.mem_of_find?_eq_some hf
  have hfa : f a = true := List.find?_some hf
  have hsplit := List.countP_eq_countP_filter_add l p f
  have hcount : (if p a then 1 else 0) ≤ (l.filter f).countP p := by
    split
    · rename_i hp
      exact List.countP_pos_iff.mpr ⟨a,List.mem_filter.mpr ⟨hmem,hfa⟩,hp⟩
    · exact Nat.zero_le _
  omega

theorem World.rowsWith_deleteHash {token : String}
    (hf : w.refreshTokens.find? (·.tokenHash = hashRefreshToken C token) = some t) :
    (w.deleteHash (hashRefreshToken C token)).rowsWith h+(if t.tokenHash = h then 1 else 0) ≤
      w.rowsWith h := by
  simpa [rowsWith,deleteHash] using
    countP_filter_of_find? (p := fun s => decide (s.tokenHash = h)) hf

theorem World.rowsOf_deleteHash {token : String}
    (hf : w.refreshTokens.find? (·.tokenHash = hashRefreshToken C token) = some t) :
    (w.deleteHash (hashRefreshToken C token)).rowsOf u+(if t.userId = u then 1 else 0) ≤ w.rowsOf u := by
  simpa [rowsOf,deleteHash] using countP_filter_of_find? (p := fun s => decide (s.userId = u)) hf

/-! ### One hash, one place -/

/-- A step moves a hash between the table and the calls; only a draw brings a new one. -/
theorem holds_step {p : ℕ} {q q' : Call} (hs : q.step C secret p ch w = some (q',w')) :
    w'.rowsWith h+holds C h q'+((w.drawn.map (hashRefreshToken C)).count h+0) ≤
      w.rowsWith h+holds C h q+((w'.drawn.map (hashRefreshToken C)).count h+0) := by
  cases Call.edge hs with
  | loginStart e => cases e <;> simp [holds,Call.pending?,Call.record?,World.rowsWith,World.setSrp]
  | loginFinish e =>
    cases e with
    | unread => simp [holds,Call.pending?,Call.record?]
    | spoiled => simp [holds,Call.pending?,Call.record?,World.rowsWith,World.setSrp]
    | consumed => simp [holds,Call.pending?,Call.record?,World.rowsWith,World.setSrp]
    | refused => simp [holds,Call.pending?,Call.record?]
    | accepted => simp [holds,Call.pending?,Call.record?]
    | pruned login =>
      have hrows : (w.prune login.user.id ch.drawn).rowsWith h ≤ w.rowsWith h := countP_filter_le _ _ _
      have hdrawn : ((w.prune login.user.id ch.drawn).drawn.map (hashRefreshToken C)).count h =
          (w.drawn.map (hashRefreshToken C)).count h+if hashRefreshToken C ch.drawn = h then 1 else 0 := by
        simp [World.prune,List.count_singleton]
      simp only [holds,Call.pending?,Call.record?,Option.map_some,Option.map_none,Option.some.injEq,
        reduceCtorEq,if_false]
      omega
    | inserted hi =>
      have hrows := World.rowsWith_insertToken (h := h) hi
      dsimp only at hrows
      have hdrawn : w'.drawn = w.drawn := by rw [World.insertToken_eq hi]
      simp only [holds,Call.pending?,Call.record?,Option.map_some,Option.map_none,Option.some.injEq,
        reduceCtorEq,if_false,hdrawn]
      omega
    | finished => simp [holds,Call.pending?,Call.record?]
    | failed => simp [holds,Call.pending?,Call.record?]
  | refreshTokens e =>
    cases e with
    | refused => simp [holds,Call.pending?,Call.record?,Refresh.inRotation?]
    | deleted hf =>
      have hrows := World.rowsWith_deleteHash (h := h) hf
      simp only [holds,Call.pending?,Call.record?,Refresh.inRotation?,Option.map_some,Option.map_none,
        Option.some.injEq,reduceCtorEq,if_false,World.deleteHash]
      simp only [World.deleteHash] at hrows
      omega
    | read => simp [holds,Call.pending?,Call.record?,Refresh.inRotation?]
    | switchedOff token record user =>
      have hrows : (w.deleteUser record.userId).rowsWith h ≤ w.rowsWith h := countP_filter_le _ _ _
      have hdrawn : (w.deleteUser record.userId).drawn = w.drawn := rfl
      simp only [holds,Call.pending?,Call.record?,Refresh.inRotation?,Option.map_some,Option.map_none,
        Option.some.injEq,reduceCtorEq,if_false,hdrawn]
      omega
    | pruned hactive =>
      rename_i token record user
      have hrows : (w.prune record.userId ch.drawn).rowsWith h ≤ w.rowsWith h := countP_filter_le _ _ _
      have hdrawn : ((w.prune record.userId ch.drawn).drawn.map (hashRefreshToken C)).count h =
          (w.drawn.map (hashRefreshToken C)).count h+if hashRefreshToken C ch.drawn = h then 1 else 0 := by
        simp [World.prune,List.count_singleton]
      simp only [holds,Call.pending?,Call.record?,Refresh.inRotation?,Option.map_some,Option.map_none,
        Option.some.injEq,reduceCtorEq,if_false]
      omega
    | inserted hi =>
      have hrows := World.rowsWith_insertToken (h := h) hi
      dsimp only at hrows
      have hdrawn : w'.drawn = w.drawn := by rw [World.insertToken_eq hi]
      simp only [holds,Call.pending?,Call.record?,Refresh.inRotation?,Option.map_some,Option.map_none,
        Option.some.injEq,reduceCtorEq,if_false,hdrawn]
      omega
    | failed e hrecord =>
      rename_i q record
      cases q <;> simp only [Refresh.inRotation?,reduceCtorEq,Option.some.injEq] at hrecord <;>
        subst hrecord <;> simp [holds,Call.pending?,Call.record?,Refresh.inRotation?]
  | logout e =>
    cases e with
    | deleted u =>
      have hrows : (w.deleteUser u).rowsWith h ≤ w.rowsWith h := countP_filter_le _ _ _
      have hdrawn : (w.deleteUser u).drawn = w.drawn := rfl
      simp only [holds,Call.pending?,Call.record?,Option.map_none,reduceCtorEq,if_false,hdrawn]
      omega
    | audited => simp [holds,Call.pending?,Call.record?]
    | offline => simp [holds,Call.pending?,Call.record?]
    | finished => simp [holds,Call.pending?,Call.record?]
    | failed => simp [holds,Call.pending?,Call.record?]
  | register e =>
    rw [World.rowsWith,e.refreshTokens,e.drawn]
    simp [holds,Call.pending?,Call.record?,World.rowsWith]
  | updateProfile e =>
    rw [World.rowsWith,e.refreshTokens,e.drawn]
    simp [holds,Call.pending?,Call.record?,World.rowsWith]

theorem Env.sessions {e : Env} (he : e.apply w = some w') :
    w'.refreshTokens = w.refreshTokens ∧ w'.drawn = w.drawn := by
  cases e <;> obtain rfl := Option.some.inj he <;> exact ⟨rfl,rfl⟩

/-- The calls of a server that starts without tokens. -/
def Started (w : World) : Prop := w.refreshTokens = [] ∧ w.drawn = []

variable {w₀ : World} {d : Config World Call}

theorem drawn_nodup (h₀ : Started w₀) (hr : Run (system C secret) (FreshTokens C secret) ⟨w₀,[]⟩ d) :
    (d.world.drawn.map (hashRefreshToken C)).Nodup := by
  refine hr.invariant (I := fun d => (d.world.drawn.map (hashRefreshToken C)).Nodup) ?_ ?_
  · simp [h₀.2]
  · exact fun a l b _ _ hl hn => hl.2 b hn

theorem holds_le_one (h₀ : Started w₀) (hr : Run (system C secret) (FreshTokens C secret) ⟨w₀,[]⟩ d)
    (hash : String) : d.total (holds C hash) ≤ 1 := by
  have hbound := hr.balance (m := fun w => w.rowsWith hash) (f := holds C hash)
    (k := fun w => (w.drawn.map (hashRefreshToken C)).count hash) (g := fun _ => 0)
    (by simp [World.rowsWith,h₀.1,Config.total]) ?_ ?_ ?_
  · have hone : (d.world.drawn.map (hashRefreshToken C)).count hash ≤ 1 :=
      List.nodup_iff_count.mp (drawn_nodup h₀ hr) hash
    have hzero : d.total (fun _ => 0) = 0 := by simp [Config.total]
    omega
  · intro a q hq
    have hinitial : q.Initial := hq.1
    cases hinitial <;> simp [holds,Call.pending?,Call.record?,Refresh.inRotation?]
  · exact fun a p q ch q' w _ _ hs => holds_step hs
  · intro a e w _ he
    obtain ⟨hrows,hdrawn⟩ := Env.sessions he
    simp [World.rowsWith,hrows,hdrawn]

/-- A refresh holds the row of its token, and goes on only for an active account. -/
def Refresh.Sound (C : Crypto) : Refresh → Prop
  | .received token record => record.tokenHash = hashRefreshToken C token
  | .selected token record _ => record.tokenHash = hashRefreshToken C token
  | .insert token record user _ _ => record.tokenHash = hashRefreshToken C token ∧ user.isActive = true
  | .done token record user _ => record.tokenHash = hashRefreshToken C token ∧ user.isActive = true
  | _ => True

theorem Refresh.Edge.sound {q q' : Refresh} (e : Edge C ch w q q' w') (hq : q.Sound C) : q'.Sound C := by
  cases e with
  | refused => trivial
  | deleted hf => simpa [Refresh.Sound] using List.find?_some hf
  | read => exact hq
  | switchedOff => trivial
  | pruned hactive => exact ⟨hq,hactive⟩
  | inserted => exact hq
  | failed => trivial

/-- The account a refresh has read. -/
def Refresh.checked? : Refresh → Option (String × RefreshToken × Account)
  | .selected token record (some user) => some (token,record,user)
  | .insert token record user _ _ => some (token,record,user)
  | .done token record user _ => some (token,record,user)
  | _ => none

/-- At some moment before `d` the refresh had deleted the row, the row was not expired, and
the account was read. -/
def Checked (ok : Config World Call → Label Call Choice Env → Prop) (C : Crypto) (secret : String)
    (w₀ : World) (d : Config World Call) (p : ℕ) (x : String × RefreshToken × Account) : Prop :=
  Earlier (system C secret) ok ⟨w₀,[]⟩ d fun a =>
    a.pool[p]? = some (.refreshTokens (.received x.1 x.2.1)) ∧ a.world.now ≤ x.2.1.expiresAt ∧
      byId a.world.users x.2.1.userId = some x.2.2

/-- Every refresh is sound, and has checked what it goes on with. -/
theorem refresh_checked {ok : Config World Call → Label Call Choice Env → Prop}
    (harrives : ∀ c l, ok c l → Arrives c l) (hr : Run (system C secret) ok ⟨w₀,[]⟩ d) :
    ∀ p q, d.pool[p]? = some q → ∀ q', q = .refreshTokens q' → q'.Sound C ∧
      ∀ x, q'.checked? = some x → Checked ok C secret w₀ d p x := by
  refine hr.each (I := fun d p q => ∀ q', q = .refreshTokens q' → q'.Sound C ∧
    ∀ x, q'.checked? = some x → Checked ok C secret w₀ d p x) (by simp) ?_ ?_ ?_
  · rintro a q _ hq q' rfl
    have hinitial : Call.Initial (.refreshTokens q') := harrives _ _ hq
    cases hinitial
    exact ⟨trivial,by simp [Refresh.checked?]⟩
  · rintro a p q ch q' w hrun hl hq hI hs q'' rfl
    have hnext : (system C secret).next a (.run p ch) = some ⟨w,a.pool.set p (.refreshTokens q'')⟩ := by
      simp only [System.next,hq,hs,Option.map_some]
    cases Call.edge hs with
    | refreshTokens e =>
      rename_i q
      obtain ⟨hsound,hchecked⟩ := hI q rfl
      have hkept : ∀ x, q.checked? = some x →
          Checked ok C secret w₀ ⟨w,a.pool.set p (.refreshTokens q'')⟩ p x :=
        fun x hx => Earlier.next (hchecked x hx) hl hnext
      refine ⟨e.sound hsound,?_⟩
      intro x hx
      cases e with
      | refused => simp [Refresh.checked?] at hx
      | deleted => simp [Refresh.checked?] at hx
      | read hfresh =>
        rename_i token record
        cases huser : byId a.world.users record.userId with
        | none => simp [Refresh.checked?,huser] at hx
        | some user =>
          rw [huser] at hnext
          obtain rfl : (token,record,user) = x := by simpa [Refresh.checked?,huser] using hx
          exact Earlier.of_next hrun hl hnext ⟨hq,by simpa using hfresh,huser⟩
      | switchedOff => simp [Refresh.checked?] at hx
      | pruned => exact hkept x hx
      | inserted => exact hkept x hx
      | failed => simp [Refresh.checked?] at hx
  · rintro a l b p q hrun hl hn hI q' rfl
    obtain ⟨hsound,hchecked⟩ := hI q' rfl
    exact ⟨hsound,fun x hx => Earlier.next (hchecked x hx) hl hn⟩

/-! ### No more tokens than logins -/

/-- The user of a step that takes a token out of the table, puts one in or grants one. -/
theorem carries_step {p : ℕ} {q q' : Call} (hs : q.step C secret p ch w = some (q',w')) :
    w'.rowsOf u+(one Call.rotating? u q'+one Call.entering? u q')+(0+one Call.loggedIn? u q) ≤
      w.rowsOf u+(one Call.rotating? u q+one Call.entering? u q)+(0+one Call.loggedIn? u q') := by
  cases Call.edge hs with
  | loginStart e =>
    cases e <;> simp [one,Call.rotating?,Call.entering?,Call.loggedIn?,World.rowsOf,World.setSrp]
  | loginFinish e =>
    cases e with
    | unread => simp [one,Call.rotating?,Call.entering?,Call.loggedIn?,LoginFinish.login?]
    | spoiled =>
      simp [one,Call.rotating?,Call.entering?,Call.loggedIn?,LoginFinish.login?,World.rowsOf,World.setSrp]
    | consumed =>
      simp [one,Call.rotating?,Call.entering?,Call.loggedIn?,LoginFinish.login?,World.rowsOf,World.setSrp]
    | refused => simp [one,Call.rotating?,Call.entering?,Call.loggedIn?,LoginFinish.login?]
    | accepted => simp [one,Call.rotating?,Call.entering?,Call.loggedIn?,LoginFinish.login?]
    | pruned login =>
      have hrows : (w.prune login.user.id ch.drawn).rowsOf u ≤ w.rowsOf u := countP_filter_le _ _ _
      simp only [one,Call.rotating?,Call.entering?,Call.loggedIn?,LoginFinish.login?,Option.map_some,
        Option.some.injEq,reduceCtorEq,if_false]
      omega
    | inserted hi =>
      have hrows := World.rowsOf_insertToken (u := u) hi
      dsimp only at hrows
      simp only [one,Call.rotating?,Call.entering?,Call.loggedIn?,LoginFinish.login?,Option.map_some,
        Option.some.injEq,reduceCtorEq,if_false]
      omega
    | finished => simp [one,Call.rotating?,Call.entering?,Call.loggedIn?,LoginFinish.login?]
    | failed hlogin =>
      rename_i q login
      cases q <;> simp only [LoginFinish.login?,reduceCtorEq,Option.some.injEq] at hlogin <;>
        subst hlogin <;> simp [one,Call.rotating?,Call.entering?,Call.loggedIn?,LoginFinish.login?]
  | refreshTokens e =>
    cases e with
    | refused => simp [one,Call.rotating?,Call.entering?,Call.loggedIn?,Refresh.inRotation?]
    | deleted hf =>
      have hrows := World.rowsOf_deleteHash (u := u) hf
      simp only [one,Call.rotating?,Call.entering?,Call.loggedIn?,Refresh.inRotation?,Option.map_some,
        Option.map_none,Option.some.injEq,reduceCtorEq,if_false]
      omega
    | read => simp [one,Call.rotating?,Call.entering?,Call.loggedIn?,Refresh.inRotation?]
    | switchedOff token record user =>
      have hrows : (w.deleteUser record.userId).rowsOf u ≤ w.rowsOf u := countP_filter_le _ _ _
      simp only [one,Call.rotating?,Call.entering?,Call.loggedIn?,Refresh.inRotation?,Option.map_some,
        Option.some.injEq,reduceCtorEq,if_false]
      omega
    | pruned hactive =>
      rename_i token record user
      have hrows : (w.prune record.userId ch.drawn).rowsOf u ≤ w.rowsOf u := countP_filter_le _ _ _
      simp only [one,Call.rotating?,Call.entering?,Call.loggedIn?,Refresh.inRotation?,Option.map_some,
        Option.some.injEq,reduceCtorEq,if_false]
      omega
    | inserted hi =>
      have hrows := World.rowsOf_insertToken (u := u) hi
      dsimp only at hrows
      simp only [one,Call.rotating?,Call.entering?,Call.loggedIn?,Refresh.inRotation?,Option.map_some,
        Option.map_none,Option.some.injEq,reduceCtorEq,if_false]
      omega
    | failed e hrecord =>
      rename_i q record
      cases q <;> simp only [Refresh.inRotation?,reduceCtorEq,Option.some.injEq] at hrecord <;>
        subst hrecord <;> simp [one,Call.rotating?,Call.entering?,Call.loggedIn?,Refresh.inRotation?]
  | logout e =>
    cases e with
    | deleted u' =>
      have hrows : (w.deleteUser u').rowsOf u ≤ w.rowsOf u := countP_filter_le _ _ _
      simp only [one,Call.rotating?,Call.entering?,Call.loggedIn?,reduceCtorEq,if_false]
      omega
    | audited => simp [one,Call.rotating?,Call.entering?,Call.loggedIn?]
    | offline => simp [one,Call.rotating?,Call.entering?,Call.loggedIn?]
    | finished => simp [one,Call.rotating?,Call.entering?,Call.loggedIn?]
    | failed => simp [one,Call.rotating?,Call.entering?,Call.loggedIn?]
  | register e =>
    rw [World.rowsOf,e.refreshTokens]
    simp [one,Call.rotating?,Call.entering?,Call.loggedIn?,World.rowsOf]
  | updateProfile e =>
    rw [World.rowsOf,e.refreshTokens]
    simp [one,Call.rotating?,Call.entering?,Call.loggedIn?,World.rowsOf]

theorem tokens_le_logins (h₀ : Started w₀) (hr : Run (system C secret) (FreshTokens C secret) ⟨w₀,[]⟩ d)
    (u : String) :
    d.world.rowsOf u+d.total (one Call.rotating? u) ≤ d.total (one Call.loggedIn? u) := by
  have hbound := hr.balance (m := fun w => w.rowsOf u)
    (f := fun q => one Call.rotating? u q+one Call.entering? u q) (k := fun _ => 0)
    (g := one Call.loggedIn? u) (by simp [World.rowsOf,h₀.1,Config.total]) ?_ ?_ ?_
  · have hmono : d.total (one Call.rotating? u) ≤
        d.total (fun q => one Call.rotating? u q+one Call.entering? u q) :=
      Config.total_mono fun q => Nat.le_add_right _ _
    omega
  · intro a q hq
    have hinitial : q.Initial := hq.1
    cases hinitial <;> simp [one,Call.rotating?,Call.entering?,Refresh.inRotation?]
  · exact fun a p q ch q' w _ _ hs => carries_step hs
  · intro a e w _ he
    simp [World.rowsOf,(Env.sessions he).1]

end

/-- A token is redeemed at most once, the rows of a user and the refreshes of the user between
their two statements never outnumber the user's accepted logins, and a refresh that goes on to
issue tokens had read an active account and a row that was not expired. -/
theorem refresh_tokens_redeemed_once (C : Crypto) (secret : String) (w₀ : World) (d : Config World Call)
    (h₀ : Started w₀) (hr : Run (system C secret) (FreshTokens C secret) ⟨w₀,[]⟩ d) :
    (∀ (p r : ℕ) (token token' : String) (record record' : RefreshToken) (user user' : Account)
        (issued issued' : String),
      d.pool[p]? = some (.refreshTokens (.done token record user issued)) →
      d.pool[r]? = some (.refreshTokens (.done token' record' user' issued')) →
      hashRefreshToken C token = hashRefreshToken C token' → p = r) ∧
    (∀ u, d.world.rowsOf u+d.total (one Call.rotating? u) ≤ d.total (one Call.loggedIn? u)) ∧
    ∀ (p : ℕ) (token : String) (record : RefreshToken) (user : Account) (issued : String),
      d.pool[p]? = some (.refreshTokens (.done token record user issued)) ∨
        (∃ e, d.pool[p]? = some (.refreshTokens (.insert token record user issued e))) →
      user.isActive = true ∧ Checked (FreshTokens C secret) C secret w₀ d p (token,record,user) := by
  have hchecked := refresh_checked (fun _ _ h => h.1) hr
  refine ⟨?_,tokens_le_logins h₀ hr,?_⟩
  · intro p r token token' record record' user user' issued issued' hp hr' hhash
    by_contra hne
    have hsound := ((hchecked p _ hp) _ rfl).1.1
    have hsound' := ((hchecked r _ hr') _ rfl).1.1
    have hone : ∀ {t : String} {rec : RefreshToken} {us : Account} {i : String},
        rec.tokenHash = hashRefreshToken C t → hashRefreshToken C t = hashRefreshToken C token →
        holds C (hashRefreshToken C token) (.refreshTokens (.done t rec us i)) = 1 := by
      intro t rec us i hrec ht
      simp [holds,Call.pending?,Call.record?,hrec,ht]
    have hsum := Config.add_le_total (f := holds C (hashRefreshToken C token)) hne hp hr'
    rw [hone hsound rfl,hone hsound' hhash.symm] at hsum
    have hle := holds_le_one h₀ hr (hashRefreshToken C token)
    omega
  · rintro p token record user issued (hp | ⟨e,hp⟩)
    · have h := (hchecked p _ hp) _ rfl
      exact ⟨h.1.2,h.2 _ rfl⟩
    · have h := (hchecked p _ hp) _ rfl
      exact ⟨h.1.2,h.2 _ rfl⟩

def arrives : Label Call Choice Env → Bool
  | .spawn q => q.isInitial
  | _ => true

theorem arrives_sound {c : Config World Call} {l : Label Call Choice Env} (h : arrives l = true) :
    Arrives c l := by
  cases l with
  | spawn q => exact Call.initial_of_isInitial h
  | run => trivial
  | env => trivial

def freshTokens (C : Crypto) (secret : String) (c : Config World Call) (l : Label Call Choice Env) : Bool :=
  arrives l && ((system C secret).next c l).all fun d => (d.world.drawn.map (hashRefreshToken C)).Nodup

theorem freshTokens_sound (C : Crypto) (secret : String) (c : Config World Call)
    (l : Label Call Choice Env) (h : freshTokens C secret c l = true) : FreshTokens C secret c l := by
  rw [freshTokens,Bool.and_eq_true] at h
  refine ⟨arrives_sound h.1,fun d hd => ?_⟩
  simpa [hd] using h.2

/-- One account and no session. -/
def home : World := ⟨[adaRow],[],fun _ => none,[],0⟩

def draw (token : String) : Choice := ⟨false,token⟩

/-- The proof of the client secret 7 against the server secret 5. -/
def adaFinish : FinishInput := ⟨"ada","80",String.ofList (List.replicate 62 '0'++['6','0'])⟩

/-- The account logs in, and the refresh token is redeemed twice. -/
def redeemedTwice : List (Label Call Choice Env) :=
  [.spawn (.loginStart (.select "ada" 5)),.run 0 (draw ""),.run 0 (draw ""),
    .spawn (.loginFinish (.consume adaFinish)),.run 1 (draw ""),.run 1 (draw ""),.run 1 (draw "a"),
    .run 1 (draw ""),.run 1 (draw ""),
    .spawn (.refreshTokens (.delete "a")),.spawn (.refreshTokens (.delete "a")),.run 2 (draw ""),
    .run 3 (draw ""),.run 2 (draw ""),.run 2 (draw "bb"),.run 2 (draw "")]

def Call.outcome : Call → ℕ
  | .loginFinish (.done _ _) => 1
  | .refreshTokens (.done _ _ _ _) => 2
  | .refreshTokens (.refused _) => 3
  | .logout (.done _) => 4
  | _ => 0

theorem refresh_tokens_redeemed_once_twice :
    Started home ∧ ∃ d, Run (system byLength "secret") (FreshTokens byLength "secret") ⟨home,[]⟩ d ∧
      d.pool.map Call.outcome = [0,1,2,3] ∧ d.total (one Call.loggedIn? "user-1") = 1 ∧
      d.world.rowsOf "user-1"+d.total (one Call.rotating? "user-1") ≤ 1 := by
  obtain ⟨d,hd,hf⟩ := Run.exists_of_exec (S := system byLength "secret") (c := ⟨home,[]⟩)
    (freshTokens_sound byLength "secret") redeemedTwice
    (f := fun d => (d.pool.map Call.outcome,d.total (one Call.loggedIn? "user-1"))) (v := ([0,1,2,3],1))
    (by decide +kernel)
  obtain ⟨hpool,hlogins⟩ := Prod.mk.inj hf
  have hstarted : Started home := ⟨rfl,rfl⟩
  have hbound := (refresh_tokens_redeemed_once byLength "secret" home d hstarted hd).2.1 "user-1"
  exact ⟨hstarted,d,hd,hpool,hlogins,by omega⟩

/-! ### Logout -/

/-- When a logout deletes the rows of its user, no refresh of the user has deleted its row and
may still insert the new one. -/
def CleanLogout (c : Config World Call) : Label Call Choice Env → Prop
  | .run p ch => ch.fails = false → ∀ u, c.pool[p]? = some (.logout (.delete u)) →
      ∀ (r : ℕ) q record, c.pool[r]? = some (.refreshTokens q) → q.inRotation? = some record →
        record.userId ≠ u
  | _ => True

/-- No login of the user inserts its token. -/
def NoLogin (u : String) (c : Config World Call) : Label Call Choice Env → Prop
  | .run p _ => ∀ login token e, c.pool[p]? = some (.loginFinish (.insert login token e)) → login.user.id ≠ u
  | _ => True

/-- The user has no row and no refresh that may still insert one. -/
structure SignedOut (u : String) (c : Config World Call) : Prop where
  rows : ∀ t ∈ c.world.refreshTokens, t.userId ≠ u
  rotations : ∀ (r : ℕ) q record, c.pool[r]? = some (.refreshTokens q) → q.inRotation? = some record →
    record.userId ≠ u

section

variable {C : Crypto} {secret : String} {ch : Choice} {w w' : World} {u : String}

theorem Call.Initial.not_inRotation {q : Refresh} (h : Call.Initial (.refreshTokens q)) :
    q.inRotation? = none := by
  cases h
  rfl

/-- A step adds rows of the user only for a login or for a refresh of the user. -/
theorem rows_step {p : ℕ} {q q' : Call} (hs : q.step C secret p ch w = some (q',w'))
    (hrows : ∀ t ∈ w.refreshTokens, t.userId ≠ u)
    (hlogin : ∀ login token e, q = .loginFinish (.insert login token e) → login.user.id ≠ u)
    (hrotation : ∀ s record, q = .refreshTokens s → s.inRotation? = some record → record.userId ≠ u) :
    ∀ t ∈ w'.refreshTokens, t.userId ≠ u := by
  have hfilter : ∀ f, ∀ t ∈ w.refreshTokens.filter f, t.userId ≠ u :=
    fun f t ht => hrows t (List.mem_of_mem_filter ht)
  have hinsert : ∀ {r : RefreshToken} {v : World}, w.insertToken r = some v → r.userId ≠ u →
      ∀ t ∈ v.refreshTokens, t.userId ≠ u := by
    intro r v hi hr t ht
    rw [World.insertToken_eq hi] at ht
    rcases List.mem_append.mp ht with ht | ht
    · exact hrows t ht
    · rw [List.mem_singleton.mp ht]
      exact hr
  cases Call.edge hs with
  | loginStart e => cases e <;> exact hrows
  | loginFinish e =>
    cases e with
    | pruned login => exact hfilter _
    | inserted hi => exact hinsert hi (hlogin _ _ _ rfl)
    | unread => exact hrows
    | spoiled => exact hrows
    | consumed => exact hrows
    | refused => exact hrows
    | accepted => exact hrows
    | finished => exact hrows
    | failed => exact hrows
  | refreshTokens e =>
    cases e with
    | deleted => exact hfilter _
    | switchedOff => exact hfilter _
    | pruned => exact hfilter _
    | inserted hi =>
      rename_i record _ _ _
      exact hinsert hi (hrotation _ record rfl rfl)
    | refused => exact hrows
    | read => exact hrows
    | failed => exact hrows
  | logout e => cases e <;> first | exact hrows | exact hfilter _
  | register e =>
    rw [e.refreshTokens]
    exact hrows
  | updateProfile e =>
    rw [e.refreshTokens]
    exact hrows

/-- A refresh comes between its two statements only by deleting a row. -/
theorem rotation_step {p : ℕ} {q : Call} {s' : Refresh} {record : RefreshToken}
    (hs : q.step C secret p ch w = some (.refreshTokens s',w')) (hr : s'.inRotation? = some record) :
    record ∈ w.refreshTokens ∨ ∃ s, q = .refreshTokens s ∧ s.inRotation? = some record := by
  cases Call.edge hs with
  | refreshTokens e =>
    cases e with
    | deleted hf =>
      obtain rfl := Option.some.inj hr
      exact .inl (List.mem_of_find?_eq_some hf)
    | read => exact .inr ⟨_,rfl,hr⟩
    | pruned => exact .inr ⟨_,rfl,hr⟩
    | refused => simp [Refresh.inRotation?] at hr
    | switchedOff => simp [Refresh.inRotation?] at hr
    | inserted => simp [Refresh.inRotation?] at hr
    | failed => simp [Refresh.inRotation?] at hr

theorem SignedOut.next {c d : Config World Call} {l : Label Call Choice Env} (h : SignedOut u c)
    (ha : Arrives c l) (hl : NoLogin u c l) (hn : (system C secret).next c l = some d) : SignedOut u d := by
  cases l with
  | spawn q =>
    simp only [System.next,Option.some.injEq] at hn
    subst hn
    refine ⟨h.rows,fun r s record hr hrot => ?_⟩
    rcases pool_append hr with ⟨_,hold⟩ | ⟨_,rfl⟩
    · exact h.rotations r s record hold hrot
    · rw [Call.Initial.not_inRotation ha] at hrot
      simp at hrot
  | run p ch =>
    obtain ⟨q,q',w,hq,hs,rfl⟩ := (system C secret).next_run hn
    refine ⟨rows_step hs h.rows (fun login token e he => hl login token e (he ▸ hq))
      fun s record he => h.rotations p s record (he ▸ hq),fun r s record hr hrot => ?_⟩
    rcases pool_set hr with ⟨rfl,rfl⟩ | ⟨_,hold⟩
    · rcases rotation_step hs hrot with hmem | ⟨s',rfl,hrot'⟩
      · exact h.rows record hmem
      · exact h.rotations r s' record hq hrot'
    · exact h.rotations r s record hold hrot
  | env e =>
    obtain ⟨w,hw,rfl⟩ := (system C secret).next_env hn
    exact ⟨by rw [(Env.sessions hw).1]; exact h.rows,h.rotations⟩

/-- A logout that has not deleted yet. -/
def Logout.before : Logout → Bool
  | .audit _ => true
  | .status _ => true
  | .delete _ => true
  | _ => false

/-- From the moment the logout deletes, the user is signed out. -/
theorem signedOut_of_run {c d : Config World Call} {p : ℕ}
    (h : Run (system C secret) (fun c l => Arrives c l ∧ CleanLogout c l ∧ NoLogin u c l) c d)
    (hp : c.pool[p]? = some (.logout (.audit u))) :
    ∃ q, d.pool[p]? = some (.logout q) ∧ q.userId = u ∧ (q.before = true ∨ q = .failed u ∨ SignedOut u d) := by
  refine h.invariant (I := fun d => ∃ q, d.pool[p]? = some (.logout q) ∧ q.userId = u ∧
    (q.before = true ∨ q = .failed u ∨ SignedOut u d)) ⟨_,hp,rfl,.inl rfl⟩ ?_
  rintro a l b _ ⟨q,hq,hu,hq'⟩ ⟨ha,hclean,hlogin⟩ hn
  cases l with
  | spawn s =>
    have hkept : SignedOut u a → SignedOut u b := fun h => h.next ha hlogin hn
    simp only [System.next,Option.some.injEq] at hn
    subst hn
    refine ⟨q,?_,hu,hq'.imp_right (.imp_right hkept)⟩
    rw [List.getElem?_append_left (List.getElem?_eq_some_iff.mp hq).1]
    exact hq
  | env e =>
    have hkept : SignedOut u a → SignedOut u b := fun h => h.next ha hlogin hn
    obtain ⟨w,_,rfl⟩ := (system C secret).next_env hn
    exact ⟨q,hq,hu,hq'.imp_right (.imp_right hkept)⟩
  | run r ch =>
    have hkept : SignedOut u a → SignedOut u b := fun h => h.next ha hlogin hn
    obtain ⟨s,s',w,hs,hstep,rfl⟩ := (system C secret).next_run hn
    by_cases hr : r = p
    · subst hr
      obtain rfl := Option.some.inj (hq.symm.trans hs)
      have hlt := (List.getElem?_eq_some_iff.mp hq).1
      have hcall : Call.step C secret r (.logout q) ch a.world = some (s',w) := hstep
      cases Call.edge hcall with
      | logout e =>
        refine ⟨_,List.getElem?_set_self hlt,?_⟩
        cases e with
        | audited => exact ⟨hu,.inl rfl⟩
        | offline => exact ⟨hu,.inl rfl⟩
        | deleted v hfails =>
          obtain rfl : v = u := hu
          refine ⟨rfl,.inr (.inr ⟨?_,?_⟩)⟩
          · intro t ht
            simpa using (List.mem_filter.mp ht).2
          · intro i x record hi hx
            rcases pool_set hi with ⟨_,he⟩ | ⟨_,hold⟩
            · simp at he
            · exact hclean hfails v hq i x record hold hx
        | finished =>
          have hout : SignedOut u a := by simpa [Logout.before] using hq'
          exact ⟨hu,.inr (.inr (hkept hout))⟩
        | failed => exact ⟨hu,.inr (.inl (by rw [hu]))⟩
    · refine ⟨q,?_,hu,hq'.imp_right (.imp_right hkept)⟩
      rw [List.getElem?_set_ne hr]
      exact hq

end

/-- A logout that is done has ended every session of its user, in every run in which no refresh
of the user is between its two statements when a logout deletes, and no login of the user
inserts a token. -/
theorem logout_ends_sessions (C : Crypto) (secret u : String) (c d : Config World Call) (p : ℕ)
    (h : Run (system C secret) (fun c l => Arrives c l ∧ CleanLogout c l ∧ NoLogin u c l) c d)
    (hp : c.pool[p]? = some (.logout (.audit u))) (hd : d.pool[p]? = some (.logout (.done u))) :
    ∀ t ∈ d.world.refreshTokens, t.userId ≠ u := by
  obtain ⟨q,hq,_,hout⟩ := signedOut_of_run h hp
  obtain rfl : q = .done u := by simpa using hq.symm.trans hd
  have hsigned : SignedOut u d := by simpa [Logout.before] using hout
  exact hsigned.rows

/-- An account with one session. -/
def loggedIn : World := ⟨[adaRow],[⟨hashRefreshToken byLength "a","user-1",1000⟩],fun _ => none,["a"],0⟩

def noLogin (u : String) (c : Config World Call) : Label Call Choice Env → Bool
  | .run p _ =>
    match c.pool[p]? with
    | some (.loginFinish (.insert login _ _)) => login.user.id ≠ u
    | _ => true
  | _ => true

def cleanLogout (c : Config World Call) : Label Call Choice Env → Bool
  | .run p _ =>
    match c.pool[p]? with
    | some (.logout (.delete u)) => c.pool.all fun q =>
      match q with
      | .refreshTokens q => q.inRotation?.all (·.userId ≠ u)
      | _ => true
    | _ => true
  | _ => true

theorem noLogin_sound {u : String} {c : Config World Call} {l : Label Call Choice Env}
    (h : noLogin u c l = true) : NoLogin u c l := by
  cases l with
  | spawn => trivial
  | env => trivial
  | run p ch =>
    intro login token e hq
    simpa [noLogin,hq] using h

theorem cleanLogout_sound {c : Config World Call} {l : Label Call Choice Env}
    (h : cleanLogout c l = true) : CleanLogout c l := by
  cases l with
  | spawn => trivial
  | env => trivial
  | run p ch =>
    intro _ u hq r q record hr hx
    have hall : (c.pool.all fun q =>
        match q with
        | .refreshTokens q => q.inRotation?.all (·.userId ≠ u)
        | _ => true) = true := by
      simpa [cleanLogout,hq] using h
    have hone := List.all_eq_true.mp hall _ (List.mem_of_getElem? hr)
    simpa [hx] using hone

def staysOut (u : String) (c : Config World Call) (l : Label Call Choice Env) : Bool :=
  arrives l && noLogin u c l

theorem staysOut_sound (u : String) (c : Config World Call) (l : Label Call Choice Env)
    (h : staysOut u c l = true) : Arrives c l ∧ NoLogin u c l := by
  rw [staysOut,Bool.and_eq_true] at h
  exact ⟨arrives_sound h.1,noLogin_sound h.2⟩

def endsSessions (u : String) (c : Config World Call) (l : Label Call Choice Env) : Bool :=
  cleanLogout c l && staysOut u c l

theorem endsSessions_sound (u : String) (c : Config World Call) (l : Label Call Choice Env)
    (h : endsSessions u c l = true) : Arrives c l ∧ CleanLogout c l ∧ NoLogin u c l := by
  rw [endsSessions,Bool.and_eq_true] at h
  have hout := staysOut_sound u c l h.2
  exact ⟨hout.1,cleanLogout_sound h.1,hout.2⟩

def logsOut (p : ℕ) : List (Label Call Choice Env) := List.replicate 4 (.run p (draw ""))

theorem logout_ends_sessions_ada :
    ∃ d, Run (system byLength "secret")
        (fun c l => Arrives c l ∧ CleanLogout c l ∧ NoLogin "user-1" c l)
        ⟨loggedIn,[.logout (.audit "user-1")]⟩ d ∧
      d.pool = [.logout (.done "user-1")] ∧ ∀ t ∈ d.world.refreshTokens, t.userId ≠ "user-1" := by
  obtain ⟨d,hd,hf⟩ := Run.exists_of_exec (S := system byLength "secret")
    (c := ⟨loggedIn,[.logout (.audit "user-1")]⟩)
    (endsSessions_sound "user-1") (logsOut 0) (f := fun d => d.pool) (v := [.logout (.done "user-1")]) (by decide +kernel)
  have hdone : d.pool[0]? = some (.logout (.done "user-1")) := by rw [hf]; rfl
  exact ⟨d,hd,hf,logout_ends_sessions byLength "secret" "user-1" _ d 0 hd rfl hdone⟩

/-- A refresh that was between its two statements when the logout deleted leaves a session. -/
theorem logout_leaves_session :
    ∃ c d, Run (system byLength "secret") Arrives ⟨loggedIn,[]⟩ c ∧
      Run (system byLength "secret") (fun c l => Arrives c l ∧ NoLogin "user-1" c l) c d ∧
      c.pool[1]? = some (.logout (.audit "user-1")) ∧ d.pool.map Call.outcome = [2,4] ∧
      ∃ t ∈ d.world.refreshTokens, t.userId = "user-1" := by
  obtain ⟨c,d,hc,hd,hf⟩ := Run.exists_of_exec_twice (S := system byLength "secret") (c := ⟨loggedIn,[]⟩)
    (staysOut_sound "user-1")
    [.spawn (.refreshTokens (.delete "a")),.run 0 (draw ""),.spawn (.logout (.audit "user-1"))]
    (logsOut 1++[.run 0 (draw ""),.run 0 (draw "bb"),.run 0 (draw "")])
    (f := fun c d => (c.pool[1]?,d.pool.map Call.outcome,d.world.rowsOf "user-1"))
    (v := (some (.logout (.audit "user-1")),[2,4],1)) (by decide +kernel)
  obtain ⟨hc1,hf⟩ := Prod.mk.inj hf
  obtain ⟨hout,hrows⟩ := Prod.mk.inj hf
  obtain ⟨t,ht,hu⟩ := List.countP_pos_iff.mp (show 0 < d.world.rowsOf "user-1" by omega)
  exact ⟨c,d,hc.mono fun _ _ h => h.1,hd,hc1,hout,t,ht,by simpa using hu⟩

end Auth

end ZevraServer
