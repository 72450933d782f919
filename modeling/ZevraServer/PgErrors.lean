import ZevraServer.Patterns
import ZevraServer.SocketEvents

/-!
# `mapPgError`

`error-codes.ts` on any value that can be thrown. Objects live in a heap, so a chain of
causes may be of any length and may go round. Only an object is looked into: a driver
error carries an SQLSTATE as its `code`, and the ORM wraps it as the `cause` of its own.
-/

namespace ZevraServer

namespace PgErrors

open Patterns

/-- A value of JavaScript; a primitive is a number, a boolean, a bigint or a symbol. -/
inductive Value
  | undefined
  | null
  | text (s : String)
  | primitive (tag : ℕ)
  | object (address : ℕ)
  | function (address : ℕ)
  deriving DecidableEq, Repr

/-- The properties that are read. -/
structure Properties where
  code : Value
  cause : Value
  deriving DecidableEq, Repr

abbrev Heap := ℕ → Properties

/-- `value?.code`. -/
def Value.code (h : Heap) : Value → Value
  | .object a => (h a).code
  | .function a => (h a).code
  | _ => .undefined

/-- `/^[0-9A-Z]{5}$/`. -/
def SQLSTATE_RE : Pattern :=
  .rep (.char fun c => (48 ≤ c.toNat && c.toNat ≤ 57) || (65 ≤ c.toNat && c.toNat ≤ 90)) 5 0

def sqlState? : Value → Option String
  | .text s => if SQLSTATE_RE.test s.toList then some s else none
  | _ => none

/-- The loop of `findPgError`, with the values it may still look into. -/
def findWithin (h : Heap) : (depth : ℕ) → Value → Option String
  | depth+1, .object a =>
    match sqlState? (h a).code with
    | some code => some code
    | none => findWithin h depth (h a).cause
  | _, _ => none

def findPgError (h : Heap) (err : Value) : Option String := findWithin h 4 err

inductive HttpErrorCode
  | validationError | unauthorized | forbidden | notFound | conflict | rateLimited | payloadTooLarge | internalError
  deriving DecidableEq, Repr

structure PgErrorMapping where
  status : ℕ
  error : HttpErrorCode
  message : String
  deriving DecidableEq, Repr

def mapCode (code : String) : PgErrorMapping :=
  if code = "23505" then ⟨409,.conflict,"Resource already exists"⟩
  else if code = "23503" then ⟨404,.notFound,"Referenced resource not found"⟩
  else if code ∈ ["22P02","22001","22003","23502","23514"] then ⟨400,.validationError,"Invalid input"⟩
  else ⟨500,.internalError,"Internal server error"⟩

def mapPgError (h : Heap) (err : Value) : Option PgErrorMapping := (findPgError h err).map mapCode

/-- The unique violation. -/
def Conflict (h : Heap) (err : Value) : Prop := ∃ m, mapPgError h err = some m ∧ m.error = .conflict

/-! ### The chain of causes -/

/-- The value after so many causes; only an object has one. -/
def nthCause (h : Heap) : ℕ → Value → Value
  | 0, v => v
  | n+1, .object a => nthCause h n (h a).cause
  | _+1, _ => .undefined

variable {h : Heap} {v : Value} {code : String} {depth n : ℕ} {a : ℕ}

theorem eq_text_of_sqlState? (hs : sqlState? v = some code) : v = .text code := by
  cases v with
  | text s =>
    rw [sqlState?] at hs
    split at hs
    · rw [Option.some.inj hs]
    · cases hs
  | undefined => cases hs
  | null => cases hs
  | primitive tag => cases hs
  | object a => cases hs
  | function a => cases hs

/-- What is found is the SQLSTATE of the first object of the chain that has one. -/
theorem findWithin_eq_some_iff : findWithin h depth v = some code ↔
    ∃ n < depth, (∃ a, nthCause h n v = .object a ∧ sqlState? (h a).code = some code) ∧
      ∀ m < n, ∃ b, nthCause h m v = .object b ∧ sqlState? (h b).code = none := by
  induction depth generalizing v with
  | zero =>
    rw [findWithin]
    · constructor
      · intro hnone
        cases hnone
      · rintro ⟨n,hn,-⟩
        omega
    · simp
  | succ depth ih =>
    cases v with
    | object a =>
      rw [findWithin]
      cases hs : sqlState? (h a).code with
      | some code' =>
        constructor
        · intro he
          obtain rfl := Option.some.inj he
          exact ⟨0,by omega,⟨a,rfl,hs⟩,fun m hm => absurd hm (Nat.not_lt_zero m)⟩
        · rintro ⟨n,-,⟨b,hb,hcode⟩,hbefore⟩
          cases n with
          | zero =>
            obtain rfl := Value.object.inj hb
            rw [← hs,hcode]
          | succ n =>
            obtain ⟨b,hb,hnone⟩ := hbefore 0 (Nat.succ_pos n)
            obtain rfl := Value.object.inj hb
            rw [hs] at hnone
            cases hnone
      | none =>
        simp only [ih]
        constructor
        · rintro ⟨n,hn,hfound,hbefore⟩
          refine ⟨n+1,by omega,hfound,fun m hm => ?_⟩
          cases m with
          | zero => exact ⟨a,rfl,hs⟩
          | succ m => exact hbefore m (by omega)
        · rintro ⟨n,hn,⟨b,hb,hcode⟩,hbefore⟩
          cases n with
          | zero =>
            obtain rfl := Value.object.inj hb
            rw [hs] at hcode
            cases hcode
          | succ n => exact ⟨n,by omega,⟨b,hb,hcode⟩,fun m hm => hbefore (m+1) (by omega)⟩
    | _ =>
      rw [findWithin]
      · constructor
        · intro hnone
          cases hnone
        · rintro ⟨n,-,⟨b,hb,-⟩,-⟩
          cases n <;> cases hb
      · simp

theorem mapCode_conflict_iff : (mapCode code).error = .conflict ↔ code = "23505" := by
  unfold mapCode
  split_ifs with h₁ h₂ h₃ <;> simp [h₁]

theorem conflict_iff : Conflict h v ↔ findPgError h v = some "23505" := by
  constructor
  · rintro ⟨m,hm,hconflict⟩
    obtain ⟨code,hcode,rfl⟩ := Option.map_eq_some_iff.mp hm
    rwa [mapCode_conflict_iff.mp hconflict] at hcode
  · intro hfind
    exact ⟨mapCode "23505",by rw [mapPgError,hfind,Option.map_some],mapCode_conflict_iff.mpr rfl⟩

/-- The acknowledgements of the sockets use the same table. -/
theorem mapCode_socketEvents (code : String) :
    SocketEvents.mapPgError code = ((mapCode code).status,(mapCode code).message) := by
  unfold SocketEvents.mapPgError mapCode
  split_ifs <;> rfl

end PgErrors

end ZevraServer
