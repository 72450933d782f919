import ZevraServer.Auth
import Mathlib.Data.List.Forall2

/-!
# The login, one request after the other

`loginStart` and `loginFinish` from their first statement to their last, over the users
and the texts under `zevra:srp:{username}`. Here the client of the protocol completes
every login with the right password, and the answers of the server do not tell whether
an account exists.
-/

namespace ZevraServer

namespace Auth

open Interleaving

structure LoginState where
  users : List Account
  srp : String → Option String

/-- What the login reads of the world. -/
def World.login (w : World) : LoginState := ⟨w.users,fun n => (w.srp n).map (·.text)⟩

/-- The part of the answer of `loginFinish` that is not drawn. -/
structure FinishReply where
  id : String
  username : String
  email : String
  M2 : String
  deriving DecidableEq, Repr

def FinishReply.of (r : Account × Srp.Outcome) : FinishReply := ⟨r.1.id,r.1.username,r.1.email,r.2.M2⟩

namespace LoginState

variable (C : Crypto) (secret : String) (σ : LoginState)

def setSrp (username : String) (text : Option String) : LoginState :=
  { σ with srp := Function.update σ.srp username text }

/-- `SrpStateService.consume`, without the deletion. -/
def consumed (username : String) : Option SrpState := (σ.srp username).bind SrpState.ofText

def loginStart (username : String) (b : ℕ) : LoginState × Except Error StartReply :=
  match startReply C secret username (byName σ.users username) b with
  | none => (σ,.error .failure)
  | some r => (σ.setSrp username (some r.2.text),.ok r.1)

def loginFinish (input : FinishInput) : LoginState × Except Error FinishReply :=
  (σ.setSrp input.username none,
    match σ.consumed input.username with
    | none => .error sessionExpired
    | some state =>
      match Srp.parseClientEphemeral input.A with
      | none => .error invalidCredentials
      | some A =>
        (verdict C input state A (stateUser σ.users state.userId)).map .of)

end LoginState

section

variable {C : Crypto} {secret : String}

/-- A `loginStart` that runs alone does what the function does. -/
theorem LoginStart.alone {p : ℕ} {username token : String} {b : ℕ} {w : World} {reply : StartReply}
    (h : (w.login.loginStart C secret username b).2 = .ok reply) :
    ∃ user state w', LoginStart.step C secret p (.select username b) ⟨false,token⟩ w =
        some (.set username user reply state,w) ∧
      LoginStart.step C secret p (.set username user reply state) ⟨false,token⟩ w =
        some (.done username user reply state,w') ∧
      w'.login = (w.login.loginStart C secret username b).1 := by
  unfold LoginState.loginStart at h ⊢
  have husers : w.login.users = w.users := rfl
  rw [husers] at h ⊢
  cases hr : startReply C secret username (byName w.users username) b with
  | none => simp [hr] at h
  | some r =>
    simp only [hr,Except.ok.injEq] at h
    subst h
    refine ⟨byName w.users username,r.2,w.setSrp username (some ⟨r.2.text,p⟩),?_,rfl,?_⟩
    · simp [LoginStart.step,hr]
    · simp only [World.login,World.setSrp,LoginState.setSrp,LoginState.mk.injEq,true_and]
      funext n
      by_cases hn : n = username
      · subst hn
        simp
      · simp [Function.update_of_ne hn]

theorem World.login_setSrp_none (w : World) (username : String) :
    (w.setSrp username none).login = w.login.setSrp username none := by
  simp only [World.login,World.setSrp,LoginState.setSrp,LoginState.mk.injEq,true_and]
  funext n
  by_cases hn : n = username
  · subst hn
    simp
  · simp [Function.update_of_ne hn]

/-- The first step of a `loginFinish` that runs alone; the second one reads the account and
takes the verdict. -/
theorem LoginFinish.alone (input : FinishInput) (token : String) (w : World) :
    ∃ q w', LoginFinish.step C (.consume input) ⟨false,token⟩ w = some (q,w') ∧
      w'.login = (w.login.loginFinish C input).1 ∧
      ((∃ e, q = .refused e ∧ (w.login.loginFinish C input).2 = .error e) ∨
        ∃ start state A, q = .select input start state A ∧
          (w.login.loginFinish C input).2 =
            (verdict C input state A (stateUser w'.users state.userId)).map FinishReply.of) := by
  simp only [LoginFinish.step,LoginState.loginFinish,LoginState.consumed]
  have hsrp : w.login.srp input.username = (w.srp input.username).map (·.text) := rfl
  rw [hsrp,← World.login_setSrp_none]
  cases hentry : w.srp input.username with
  | none =>
    have hsame : w.setSrp input.username none = w := by
      rw [World.setSrp,← hentry,Function.update_eq_self]
    exact ⟨_,w,rfl,by rw [hsame],.inl ⟨_,rfl,rfl⟩⟩
  | some entry =>
    cases hstate : SrpState.ofText entry.text with
    | none => exact ⟨.refused sessionExpired,_,by simp [hstate],rfl,.inl ⟨_,rfl,by simp [hstate]⟩⟩
    | some state =>
      cases hA : Srp.parseClientEphemeral input.A with
      | none => exact ⟨.refused invalidCredentials,_,by simp [hstate],rfl,.inl ⟨_,rfl,by simp [hstate]⟩⟩
      | some A =>
        exact ⟨_,_,by simp [hstate],rfl,.inr ⟨entry.start,state,A,rfl,by simp [hstate]; rfl⟩⟩

/-! ### The right password -/

theorem verifier_of_registerRow (input : RegisterInput) (id : String) (random : Bytes) :
    bigInt? (registerRow C input id random).srpVerifier =
      some (Srp.computeVerifier (Srp.privateKey C (hexText random) input.password)) :=
  bigInt?_bigintToHex _

/-- An account as the selects of the login find it. -/
structure LoginState.Holds (σ : LoginState) (row : Account) : Prop where
  byName : byName σ.users row.username = some row
  byId : byId σ.users row.id = some row
  id_ne : row.id ≠ ""

theorem LoginState.Holds.stateUser {σ : LoginState} {row : Account} (h : σ.Holds row) :
    stateUser σ.users (some row.id) = some row := by
  simp only [Auth.stateUser,if_neg h.id_ne,h.byId]

/-- `loginStart` for an active account. -/
theorem LoginState.loginStart_active (secret : String) {σ : LoginState} {row : Account} {v : ℕ} (h : σ.Holds row)
    (hactive : row.isActive = true) (hv : bigInt? row.srpVerifier = some v) (b : ℕ) :
    let B := Srp.generateServerEphemeral C v b
    σ.loginStart C secret row.username b =
      (σ.setSrp row.username (some (SrpState.text ⟨b,B,some row.id⟩)),
        .ok ⟨row.username,row.srpSalt,bigintToHex B⟩) := by
  intro B
  have hcreds : startCredentials C secret row.username (some row) = some (row.srpSalt,v,some row.id) := by
    simp [startCredentials,hactive,hv]
  simp only [loginStart,h.byName,startReply,hcreds,Option.map_some]
  rfl

theorem LoginState.consumed_setSrp (σ : LoginState) (username : String) (state : SrpState) :
    (σ.setSrp username (some state.text)).consumed username = some state := by
  simp [consumed,setSrp]

/-- Every login with the right password completes: for every secret of the client and of the
server the ephemeral is accepted, the state comes back as it was stored, the proof is valid
and both sides hold the same key. -/
theorem srp_login_completes (C : Crypto) (secret : String) (σ : LoginState) (input : RegisterInput)
    (id : String) (random : Bytes) (a b : ℕ) (hσ : σ.Holds (registerRow C input id random)) :
    ∃ reply proof state v,
      (σ.loginStart C secret input.username b).2 = .ok reply ∧
      reply.srpSalt = (registerRow C input id random).srpSalt ∧
      Srp.clientProof C input.password reply.srpSalt reply.B a = some proof ∧
      proof.A = Srp.G^a % Srp.N ∧
      Srp.parseClientEphemeral (toString16 proof.A) = some proof.A ∧
      (σ.loginStart C secret input.username b).1.consumed input.username = some state ∧
      state.b = b ∧ bigInt? reply.B = some state.B ∧ state.userId = some id ∧
      bigInt? (registerRow C input id random).srpVerifier = some v ∧
      Srp.verifyClientProof C proof.A proof.M1 state.b state.B v reply.srpSalt =
        ⟨true,hexText (Srp.sha256 C [Srp.bigintToBuffer proof.A,hexBytes proof.M1,proof.K]),proof.K⟩ ∧
      ((σ.loginStart C secret input.username b).1.loginFinish C
          ⟨input.username,toString16 proof.A,proof.M1⟩).2 =
        .ok ⟨id,input.username,input.email,
          hexText (Srp.sha256 C [Srp.bigintToBuffer proof.A,hexBytes proof.M1,proof.K])⟩ := by
  have hv := verifier_of_registerRow (C := C) input id random
  have hstart := LoginState.loginStart_active (C := C) secret hσ rfl hv b
  have hproof := Srp.clientProof_eq (C := C) input.password (hexText random) a b
  have hA : Srp.G^a % Srp.N % Srp.N ≠ 0 := by
    rw [Nat.mod_mod]
    exact Srp.pow_G_mod_ne a
  have hlt : Srp.G^a % Srp.N < Srp.N := Nat.mod_lt _ (Nat.lt_trans Nat.zero_lt_one Srp.one_lt_N)
  have hparse := Srp.parseClientEphemeral_toString16 (Nat.lt_trans hlt Srp.N_lt_max) hA
  set v := Srp.computeVerifier (Srp.privateKey C (hexText random) input.password)
  set B := Srp.generateServerEphemeral C v b
  set A := Srp.G^a % Srp.N
  set K := Srp.sha256 C [Srp.bigintToBuffer ((A*(v^Srp.scrambler C A B % Srp.N))^b % Srp.N)]
  set M1 := Srp.expectedM1 C (hexText random) A B K
  have hverify : Srp.verifyClientProof C A (hexText M1) b B v (hexText random) =
      ⟨true,hexText (Srp.sha256 C [Srp.bigintToBuffer A,hexBytes (hexText M1),K]),K⟩ := by
    rw [hexBytes_hexText]
    exact Srp.verifyClientProof_expected hA b B v (hexText random)
  refine ⟨⟨input.username,hexText random,bigintToHex B⟩,⟨A,hexText M1,K⟩,⟨b,B,some id⟩,v,
    congrArg Prod.snd hstart,rfl,hproof,rfl,hparse,?_,rfl,bigInt?_bigintToHex B,rfl,hv,hverify,?_⟩
  · exact (congrArg (fun r => LoginState.consumed r.1 input.username) hstart).trans
      (LoginState.consumed_setSrp _ _ _)
  · have hfirst : (σ.loginStart C secret input.username b).1 =
        σ.setSrp input.username (some (SrpState.text ⟨b,B,some id⟩)) := congrArg Prod.fst hstart
    have huser : stateUser σ.users (some id) = some (registerRow C input id random) := hσ.stateUser
    have hverdict : verdict C ⟨input.username,toString16 A,hexText M1⟩ ⟨b,B,some id⟩ A
        (some (registerRow C input id random)) = .ok (registerRow C input id random,
          ⟨true,hexText (Srp.sha256 C [Srp.bigintToBuffer A,hexBytes (hexText M1),K]),K⟩) := by
      have hactive : (registerRow C input id random).isActive = true ∧
          (registerRow C input id random).username = input.username := ⟨rfl,rfl⟩
      have hsalt : (registerRow C input id random).srpSalt = hexText random := rfl
      simp only [verdict,if_pos hactive,hv,hsalt,hverify,if_true]
    have husers : (σ.setSrp input.username (some (SrpState.text ⟨b,B,some id⟩))).users = σ.users := rfl
    simp only [hfirst,LoginState.loginFinish,LoginState.consumed_setSrp,hparse,husers,huser,hverdict]
    rfl

/-- The length of the message, in place of the hash functions. -/
def byLength : Crypto where
  sha256 l := ⟨List.replicate 31 0++[UInt8.ofNat l.length],rfl⟩
  hmac k m := ⟨List.replicate 31 0++[UInt8.ofNat (k++m).length],rfl⟩

def adaInput : RegisterInput := ⟨"ada","ada@zevra","correct horse"⟩

def adaRow : Account := registerRow byLength adaInput "user-1" (List.replicate 16 7)

def adaOnly : LoginState := ⟨[adaRow],fun _ => none⟩

theorem adaOnly_holds : adaOnly.Holds adaRow :=
  ⟨by simp [adaOnly,byName],by simp [adaOnly,byId],by simp [adaRow,registerRow]⟩

theorem srp_login_completes_ada :
    adaOnly.Holds adaRow ∧ ∃ reply proof,
      (adaOnly.loginStart byLength "secret" "ada" 5).2 = .ok reply ∧
      Srp.clientProof byLength "correct horse" reply.srpSalt reply.B 7 = some proof ∧
      ((adaOnly.loginStart byLength "secret" "ada" 5).1.loginFinish byLength
          ⟨"ada",toString16 proof.A,proof.M1⟩).2 =
        .ok ⟨"user-1","ada","ada@zevra",
          hexText (Srp.sha256 byLength [Srp.bigintToBuffer proof.A,hexBytes proof.M1,proof.K])⟩ := by
  obtain ⟨reply,proof,_,_,hreply,_,hproof,_,_,_,_,_,_,_,_,hfinish⟩ :=
    srp_login_completes byLength "secret" adaOnly adaInput "user-1" (List.replicate 16 7) 7 5 adaOnly_holds
  exact ⟨adaOnly_holds,reply,proof,hreply,hproof,hfinish⟩

/-! ### Accounts that exist and accounts that do not -/

end

/-- The requests for one username, and the expiry of its SRP state. -/
inductive Request
  | start
  | finish (A M1 : String)
  | expire
  deriving DecidableEq, Repr

inductive Answer
  | started (r : Except Error StartReply)
  | finished (r : Except Error FinishReply)
  | expired

section

variable (C : Crypto) (secret n : String)

/-- A request with the secret the server draws for it. -/
def Request.run (σ : LoginState) (b : ℕ) : Request → LoginState × Answer
  | .start => ((σ.loginStart C secret n b).1,.started (σ.loginStart C secret n b).2)
  | .finish A M1 => ((σ.loginFinish C ⟨n,A,M1⟩).1,.finished (σ.loginFinish C ⟨n,A,M1⟩).2)
  | .expire => (σ.setSrp n none,.expired)

/-- The answers of a run, each with the state it leaves. -/
def answers : LoginState → List (Request × ℕ) → List (Answer × LoginState)
  | _, [] => []
  | σ, r::rs => ((r.1.run C secret n σ r.2).2,(r.1.run C secret n σ r.2).1)::
      answers (r.1.run C secret n σ r.2).1 rs

/-- The proof of a request is not the one the account's verifier accepts. -/
def Request.unproved (row : Account) (σ : LoginState) : Request → Bool
  | .finish A M1 =>
    match σ.consumed n, Srp.parseClientEphemeral A, bigInt? row.srpVerifier with
    | some state, some A, some v => !(Srp.verifyClientProof C A M1 state.b state.B v row.srpSalt).valid
    | _, _, _ => true
  | _ => true

/-- The same for every request of a run. -/
def neverProved (row : Account) : LoginState → List (Request × ℕ) → Bool
  | _, [] => true
  | σ, r::rs => r.1.unproved C n row σ && neverProved row (r.1.run C secret n σ r.2).1 rs

/-- Answers of the same kind, with the salts of the two runs. -/
inductive SameKind (salt₁ salt₂ : String) : Answer → Answer → Prop
  | started {B₁ B₂ : ℕ} (h₁ : B₁ < Srp.N) (h₂ : B₂ < Srp.N) :
    SameKind salt₁ salt₂ (.started (.ok ⟨n,salt₁,bigintToHex B₁⟩)) (.started (.ok ⟨n,salt₂,bigintToHex B₂⟩))
  | finished (message : String) : SameKind salt₁ salt₂
    (.finished (.error (.unauthorized message))) (.finished (.error (.unauthorized message)))
  | expired : SameKind salt₁ salt₂ .expired .expired

/-- 32 hexadecimal digits. -/
def IsSalt (s : String) : Prop := s.toList.length = 32 ∧ s.toList.all Hex.isDigit = true

/-- Two states that differ in whether `n` belongs to an active account: the second has no
row for it, or the same row switched off. The row is as `register` writes it, and no login
for `n` has been started. -/
structure Differ (row : Account) (σ₁ σ₂ : LoginState) : Prop where
  username : row.username = n
  id_ne : row.id ≠ ""
  active : row.isActive = true
  salt : ∃ random : Bytes, random.length = 16 ∧ row.srpSalt = hexText random
  verifier : ∃ v, row.srpVerifier = bigintToHex v
  users : ∃ l l', σ₁.users = l++row::l' ∧
    (σ₂.users = l++l' ∨ σ₂.users = l++{ row with isActive := false }::l') ∧
    ∀ u ∈ l++l', u.username ≠ n ∧ u.id ≠ row.id
  fresh : σ₁.srp n = none ∧ σ₂.srp n = none

end

section

variable {C : Crypto} {secret n : String} {row : Account} {σ σ₁ σ₂ : LoginState}

theorem isSalt_hexText {l : Bytes} (h : l.length = 16) : IsSalt (hexText l) := by
  rw [IsSalt,hexText,String.toList_ofList,Hex.length_encode,h]
  exact ⟨rfl,Hex.all_isDigit_encode l⟩

theorem isSalt_decoy (C : Crypto) (secret n : String) : IsSalt (Srp.decoyCredentials C n secret).1 := by
  refine isSalt_hexText ?_
  rw [List.length_take,(C.hmac _ _).length_bytes]
  rfl

theorem generateServerEphemeral_lt (v b : ℕ) : Srp.generateServerEphemeral C v b < Srp.N :=
  Nat.mod_lt _ (Nat.lt_trans Nat.zero_lt_one Srp.one_lt_N)

theorem LoginState.loginStart_decoy (secret : String)
    (h : (byName σ.users n).all (! ·.isActive) = true) (b : ℕ) :
    let decoy := Srp.decoyCredentials C n secret
    let B := Srp.generateServerEphemeral C decoy.2 b
    σ.loginStart C secret n b =
      (σ.setSrp n (some (SrpState.text ⟨b,B,none⟩)),.ok ⟨n,decoy.1,bigintToHex B⟩) := by
  intro decoy B
  have hcreds : startCredentials C secret n (byName σ.users n) = some (decoy.1,decoy.2,none) := by
    cases hu : byName σ.users n with
    | none => rfl
    | some u =>
      have hoff : u.isActive = false := by simpa [hu] using h
      simp only [startCredentials,hoff]
      rfl
  simp only [loginStart,startReply,hcreds,Option.map_some]
  rfl

/-- The two runs after the same requests: both hold an entry or neither does, and the entry
of the second names no user. -/
structure Paired (n : String) (row : Account) (σ₁ σ₂ : LoginState) : Prop where
  holds : σ₁.Holds row
  absent : (byName σ₂.users n).all (! ·.isActive) = true
  entries : σ₁.srp n = none ∧ σ₂.srp n = none ∨
    ∃ s₁ s₂ : SrpState, σ₁.srp n = some s₁.text ∧ σ₂.srp n = some s₂.text ∧
      s₁.userId = some row.id ∧ s₂.userId = none

theorem Paired.isSome (h : Paired n row σ₁ σ₂) : (σ₁.srp n).isSome = (σ₂.srp n).isSome := by
  rcases h.entries with ⟨h₁,h₂⟩ | ⟨_,_,h₁,h₂,_⟩
  · rw [h₁,h₂]
  · rw [h₁,h₂]
    rfl

theorem find?_append_cons {α : Type} {p : α → Bool} {l l' : List α} {a : α} (hl : ∀ x ∈ l, p x = false)
    (ha : p a = true) : (l++a::l').find? p = some a := by
  rw [List.find?_append,List.find?_eq_none.mpr (by simpa using hl),List.find?_cons_of_pos ha]
  rfl

theorem Differ.paired (h : Differ n row σ₁ σ₂) : Paired n row σ₁ σ₂ := by
  obtain ⟨l,l',h₁,h₂,hothers⟩ := h.users
  have hl : ∀ u ∈ l, u.username ≠ n ∧ u.id ≠ row.id := fun u hu => hothers u (List.mem_append_left _ hu)
  have hname : byName σ₁.users n = some row := by
    rw [byName,h₁]
    exact find?_append_cons (by simpa using fun u hu => (hl u hu).1) (by simp [h.username])
  have hid : byId σ₁.users row.id = some row := by
    rw [byId,h₁]
    exact find?_append_cons (by simpa using fun u hu => (hl u hu).2) (by simp)
  refine ⟨⟨by rw [h.username]; exact hname,hid,h.id_ne⟩,?_,.inl h.fresh⟩
  rcases h₂ with h₂ | h₂
  · have hnone : byName σ₂.users n = none := by
      rw [byName,h₂]
      exact List.find?_eq_none.mpr (by simpa using fun u hu => (hothers u hu).1)
    simp [hnone]
  · have hsome : byName σ₂.users n = some { row with isActive := false } := by
      rw [byName,h₂]
      exact find?_append_cons (by simpa using fun u hu => (hl u hu).1) (by simp [h.username])
    simp [hsome]

/-- A proof the verifier does not accept is refused like an unknown account. -/
theorem verdict_unproved (input : FinishInput) {state : SrpState} {A v : ℕ} (hactive : row.isActive = true)
    (hname : row.username = input.username) (hv : bigInt? row.srpVerifier = some v)
    (h : (Srp.verifyClientProof C A input.M1 state.b state.B v row.srpSalt).valid = false) :
    verdict C input state A (some row) = .error invalidCredentials := by
  simp [verdict,hactive,hname,hv,h]

theorem Paired.finish (h : Paired n row σ₁ σ₂) {A M1 : String}
    (hname : row.username = n) (hactive : row.isActive = true) {v : ℕ}
    (hv : bigInt? row.srpVerifier = some v) (hno : (Request.finish A M1).unproved C n row σ₁ = true) :
    ∃ message, (σ₁.loginFinish C ⟨n,A,M1⟩).2 = .error (.unauthorized message) ∧
      (σ₂.loginFinish C ⟨n,A,M1⟩).2 = .error (.unauthorized message) := by
  rcases h.entries with ⟨h₁,h₂⟩ | ⟨s₁,s₂,h₁,h₂,hid₁,hid₂⟩
  · refine ⟨"Login session expired. Please try again.",?_,?_⟩
    · simp [LoginState.loginFinish,LoginState.consumed,h₁,sessionExpired]
    · simp [LoginState.loginFinish,LoginState.consumed,h₂,sessionExpired]
  · refine ⟨"Invalid username or password",?_,?_⟩
    · have hc : σ₁.consumed n = some s₁ := by simp [LoginState.consumed,h₁]
      cases hA : Srp.parseClientEphemeral A with
      | none => simp [LoginState.loginFinish,hc,hA,invalidCredentials]
      | some A' =>
        have hinvalid : (Srp.verifyClientProof C A' M1 s₁.b s₁.B v row.srpSalt).valid = false := by
          simpa [Request.unproved,hc,hA,hv] using hno
        have hverdict := verdict_unproved ⟨n,A,M1⟩ hactive hname hv hinvalid
        simp only [LoginState.loginFinish,hc,hA,hid₁,h.holds.stateUser,hverdict]
        rfl
    · have hc : σ₂.consumed n = some s₂ := by simp [LoginState.consumed,h₂]
      cases hA : Srp.parseClientEphemeral A with
      | none => simp [LoginState.loginFinish,hc,hA,invalidCredentials]
      | some A' =>
        simp only [LoginState.loginFinish,hc,hA,hid₂,stateUser,verdict]
        rfl

theorem Paired.cleared (h : Paired n row σ₁ σ₂) : Paired n row (σ₁.setSrp n none) (σ₂.setSrp n none) :=
  ⟨⟨h.holds.byName,h.holds.byId,h.holds.id_ne⟩,h.absent,.inl (by simp [LoginState.setSrp])⟩

/-- One request keeps the two runs alike. -/
theorem Paired.run (h : Paired n row σ₁ σ₂) (hname : row.username = n) (hactive : row.isActive = true)
    {v : ℕ} (hv : bigInt? row.srpVerifier = some v) (r : Request) (b₁ b₂ : ℕ)
    (hno : r.unproved C n row σ₁ = true) :
    SameKind n row.srpSalt (Srp.decoyCredentials C n secret).1 (r.run C secret n σ₁ b₁).2
        (r.run C secret n σ₂ b₂).2 ∧
      Paired n row (r.run C secret n σ₁ b₁).1 (r.run C secret n σ₂ b₂).1 := by
  cases r with
  | start =>
    have h₁ := LoginState.loginStart_active (C := C) secret h.holds hactive hv b₁
    have h₂ := LoginState.loginStart_decoy (C := C) secret h.absent b₂
    rw [hname] at h₁
    simp only [Request.run,h₁,h₂]
    exact ⟨.started (generateServerEphemeral_lt _ _) (generateServerEphemeral_lt _ _),
      ⟨h.holds.byName,h.holds.byId,h.holds.id_ne⟩,h.absent,
      .inr ⟨_,_,Function.update_self _ _ _,Function.update_self _ _ _,rfl,rfl⟩⟩
  | finish A M1 =>
    obtain ⟨message,h₁,h₂⟩ := h.finish hname hactive hv hno
    simp only [Request.run,h₁,h₂]
    exact ⟨.finished message,h.cleared⟩
  | expire => exact ⟨.expired,h.cleared⟩

theorem Paired.answers (h : Paired n row σ₁ σ₂) (hname : row.username = n) (hactive : row.isActive = true)
    {v : ℕ} (hv : bigInt? row.srpVerifier = some v) (rs : List (Request × ℕ × ℕ))
    (hno : neverProved C secret n row σ₁ (rs.map fun r => (r.1,r.2.1)) = true) :
    List.Forall₂ (fun a₁ a₂ => SameKind n row.srpSalt (Srp.decoyCredentials C n secret).1 a₁.1 a₂.1 ∧
        (a₁.2.srp n).isSome = (a₂.2.srp n).isSome)
      (answers C secret n σ₁ (rs.map fun r => (r.1,r.2.1)))
      (answers C secret n σ₂ (rs.map fun r => (r.1,r.2.2))) := by
  induction rs generalizing σ₁ σ₂ with
  | nil => exact .nil
  | cons r rs ih =>
    simp only [List.map_cons,neverProved,Bool.and_eq_true] at hno
    obtain ⟨hkind,hpaired⟩ := h.run hname hactive hv r.1 r.2.1 r.2.2 hno.1
    exact .cons ⟨hkind,hpaired.isSome⟩ (ih hpaired hno.2)

end

/-- Request by request, two states that differ in whether `n` belongs to an active account give
answers of the same kind: the salt of a run is one text of 32 digits, `B` is below `N`, a refusal
carries the same message, and an SRP entry exists in both or in neither. -/
theorem login_hides_accounts (C : Crypto) (secret n : String) (row : Account) (σ₁ σ₂ : LoginState)
    (h : Differ n row σ₁ σ₂) (rs : List (Request × ℕ × ℕ))
    (hno : neverProved C secret n row σ₁ (rs.map fun r => (r.1,r.2.1)) = true) :
    ∃ salt₁ salt₂, IsSalt salt₁ ∧ IsSalt salt₂ ∧
      List.Forall₂ (fun a₁ a₂ => SameKind n salt₁ salt₂ a₁.1 a₂.1 ∧
          (a₁.2.srp n).isSome = (a₂.2.srp n).isSome)
        (answers C secret n σ₁ (rs.map fun r => (r.1,r.2.1)))
        (answers C secret n σ₂ (rs.map fun r => (r.1,r.2.2))) := by
  obtain ⟨random,hlen,hsalt⟩ := h.salt
  obtain ⟨v,hv⟩ := h.verifier
  have hverifier : bigInt? row.srpVerifier = some v := by rw [hv,bigInt?_bigintToHex]
  refine ⟨row.srpSalt,(Srp.decoyCredentials C n secret).1,?_,isSalt_decoy C secret n,?_⟩
  · rw [hsalt]
    exact isSalt_hexText hlen
  · exact h.paired.answers h.username h.active hverifier rs hno

/-- A login is finished with a wrong proof, and finished once more. -/
def guesses : List (Request × ℕ × ℕ) :=
  let M1 := String.ofList (List.replicate 64 '0')
  [(.start,5,9),(.finish "2" M1,0,0),(.finish "2" M1,0,0),(.start,6,8),(.expire,0,0)]

def nobody : LoginState := ⟨[],fun _ => none⟩

theorem adaOnly_differs : Differ "ada" adaRow adaOnly nobody where
  username := rfl
  id_ne := adaOnly_holds.id_ne
  active := rfl
  salt := ⟨List.replicate 16 7,rfl,rfl⟩
  verifier :=
    ⟨Srp.computeVerifier (Srp.privateKey byLength (hexText (List.replicate 16 7)) adaInput.password),rfl⟩
  users := ⟨[],[],rfl,.inl rfl,by simp⟩
  fresh := ⟨rfl,rfl⟩

theorem guesses_wrong :
    neverProved byLength "secret" "ada" adaRow adaOnly (guesses.map fun r => (r.1,r.2.1)) = true := by
  decide +kernel

theorem login_hides_accounts_ada :
    ∃ salt₁ salt₂, IsSalt salt₁ ∧ IsSalt salt₂ ∧
      List.Forall₂ (fun a₁ a₂ => SameKind "ada" salt₁ salt₂ a₁.1 a₂.1 ∧
          (a₁.2.srp "ada").isSome = (a₂.2.srp "ada").isSome)
        (answers byLength "secret" "ada" adaOnly (guesses.map fun r => (r.1,r.2.1)))
        (answers byLength "secret" "ada" nobody (guesses.map fun r => (r.1,r.2.2))) :=
  login_hides_accounts byLength "secret" "ada" adaRow adaOnly nobody adaOnly_differs guesses guesses_wrong

end Auth

end ZevraServer
