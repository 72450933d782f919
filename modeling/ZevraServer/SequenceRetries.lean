import ZevraServer.Loops
import ZevraServer.Messages
import ZevraServer.PgErrors

/-!
# The retries of `insertWithSequence`

The loop around the insert transaction, over any outcomes of its attempts. It looks only
at the `code` of the thrown value itself, and `mapPgError` looks into its causes as well: a
unique violation that the ORM has wrapped is a conflict for the one and not for the other.
-/

namespace ZevraServer

namespace SequenceRetries

open Loops PgErrors

/-- What a transaction does. -/
inductive Outcome (α : Type)
  | row (msg : α)
  | thrown (err : Value)

/-- What the call does; the `BadRequestException` is behind the loop. -/
inductive Settled (α : Type)
  | returned (msg : α)
  | rethrown (err : Value)
  | badRequest (message : String)
  deriving DecidableEq, Repr

/-- What the call does where this outcome is the last. -/
def Outcome.settled {α : Type} : Outcome α → Settled α
  | .row msg => .returned msg
  | .thrown err => .rethrown err

structure Result (α : Type) where
  attempts : ℕ
  settled : Settled α
  deriving DecidableEq, Repr

section

variable {α : Type} (h : Heap) (outcomes : ℕ → Outcome α)

def pass (attempt : ℕ) : Pass ℕ (Result α) :=
  if attempt < MAX_SEQUENCE_RETRIES then
    match outcomes attempt with
    | .row msg => .leave ⟨attempt+1,.returned msg⟩
    | .thrown err =>
      if err.code h = .text "23505" ∧ attempt < MAX_SEQUENCE_RETRIES-1 then .next (attempt+1)
      else .leave ⟨attempt+1,.rethrown err⟩
  else .leave ⟨attempt,.badRequest "Failed to assign sequence number"⟩

/-- `insertWithSequence`, if the loop is left within so many passes. -/
def insertWithSequence (fuel : ℕ) : Option (Result α) := run (pass h outcomes) fuel 0

/-- An attempt that is not the last is followed by another exactly when `mapPgError` sees
a conflict in what it threw; the first row is returned, and without one the last thrown
value is thrown again. -/
structure Agrees (r : Result α) : Prop where
  bounded : r.attempts ≤ MAX_SEQUENCE_RETRIES
  retries : ∀ i err, i < r.attempts → i+1 < MAX_SEQUENCE_RETRIES → outcomes i = .thrown err →
    (i+1 < r.attempts ↔ Conflict h err)
  failed : ∀ i, i+1 < r.attempts → ∃ err, outcomes i = .thrown err
  last : ∃ i, r.attempts = i+1 ∧ r.settled = (outcomes i).settled

/-- A unique violation that `code` does not show: the value has no SQLSTATE and one of its
next three causes is the violation. Or a function whose `code` shows one. -/
def Misread : Value → Prop
  | .object a => sqlState? (h a).code = none ∧ findWithin h 3 (h a).cause = some "23505"
  | .function a => (h a).code = .text "23505"
  | _ => False

/-- All attempts before show a unique violation. -/
def Collides (i : ℕ) : Prop := ∀ j < i, ∃ err, outcomes j = .thrown err ∧ err.code h = .text "23505"

/-- No attempt that is made and is not the last throws a value that is misread. -/
def Legible : Prop :=
  ∀ i err, i+1 < MAX_SEQUENCE_RETRIES → Collides h outcomes i → outcomes i = .thrown err → ¬ Misread h err

/-- What the loop does by the code alone. -/
structure Ran (r : Result α) : Prop where
  bounded : r.attempts ≤ MAX_SEQUENCE_RETRIES
  collides : Collides h outcomes (r.attempts-1)
  last : ∃ i, r.attempts = i+1 ∧ r.settled = (outcomes i).settled ∧
    ∀ err, outcomes i = .thrown err → err.code h = .text "23505" → r.attempts = MAX_SEQUENCE_RETRIES

end

variable {α : Type} {h : Heap} {outcomes : ℕ → Outcome α} {r : Result α} {err : Value} {i : ℕ}

/-! ### What is misread -/

theorem sqlState?_collision : sqlState? (.text "23505") = some "23505" := by decide

theorem not_misread_iff : ¬ Misread h err ↔ (err.code h = .text "23505" ↔ Conflict h err) := by
  rw [conflict_iff,findPgError]
  cases err with
  | object a =>
    rw [Misread,Value.code,findWithin]
    cases hs : sqlState? (h a).code with
    | some code =>
      have hcode := eq_text_of_sqlState? hs
      simp [hcode]
    | none =>
      have hcode : (h a).code ≠ .text "23505" := by
        intro he
        rw [he,sqlState?_collision] at hs
        cases hs
      simp [hcode]
  | function a =>
    have hnone : findWithin h 4 (.function a) = none := by simp [findWithin]
    simp [Misread,Value.code,hnone]
  | _ => simp [Misread,Value.code,findWithin]

/-! ### The loop -/

theorem Collides.succ (hi : Collides h outcomes i) (ho : outcomes i = .thrown err)
    (hcode : err.code h = .text "23505") : Collides h outcomes (i+1) := by
  intro j hj
  rcases Nat.lt_succ_iff_lt_or_eq.mp hj with hj | rfl
  · exact hi j hj
  · exact ⟨err,ho,hcode⟩

theorem sound_pass (hlt : i < MAX_SEQUENCE_RETRIES) (hi : Collides h outcomes i) :
    Sound (pass h outcomes) (fun i => i < MAX_SEQUENCE_RETRIES ∧ Collides h outcomes i)
      (MAX_SEQUENCE_RETRIES-·) (Ran h outcomes) i := by
  cases ho : outcomes i with
  | row msg =>
    simp only [Sound,pass,if_pos hlt,ho]
    refine ⟨hlt,hi,i,rfl,by rw [ho,Outcome.settled],fun err he => ?_⟩
    rw [ho] at he
    cases he
  | thrown err =>
    by_cases hretry : err.code h = .text "23505" ∧ i < MAX_SEQUENCE_RETRIES-1
    · simp only [Sound,pass,if_pos hlt,ho,if_pos hretry]
      exact ⟨⟨by omega,hi.succ ho hretry.1⟩,by omega⟩
    · simp only [Sound,pass,if_pos hlt,ho,if_neg hretry]
      refine ⟨hlt,hi,i,rfl,by rw [ho,Outcome.settled],fun err' he hcode => ?_⟩
      obtain rfl : err = err' := Outcome.thrown.inj (ho.symm.trans he)
      have hlast : ¬ i < MAX_SEQUENCE_RETRIES-1 := fun hi' => hretry ⟨hcode,hi'⟩
      show i+1 = MAX_SEQUENCE_RETRIES
      omega

/-- The loop is left after no more attempts than it may make. -/
theorem leaves_ran (h : Heap) (outcomes : ℕ → Outcome α) :
    ∃ r, Leaves (pass h outcomes) 0 (MAX_SEQUENCE_RETRIES+1) r ∧ Ran h outcomes r :=
  leaves_of_variant (fun _ hi => sound_pass hi.1 hi.2)
    ⟨by decide,fun j hj => absurd hj (Nat.not_lt_zero j)⟩

/-- An attempt that fails before the last is followed by another exactly when its code
shows the violation. -/
theorem Ran.retries_iff (hr : Ran h outcomes r) (hi : i < r.attempts) (hmax : i+1 < MAX_SEQUENCE_RETRIES)
    (ho : outcomes i = .thrown err) : i+1 < r.attempts ↔ err.code h = .text "23505" := by
  constructor
  · intro hnext
    obtain ⟨err',ho',hcode⟩ := hr.collides i (by omega)
    obtain rfl : err = err' := Outcome.thrown.inj (ho.symm.trans ho')
    exact hcode
  · intro hcode
    obtain ⟨k,hk,-,hfull⟩ := hr.last
    by_contra hnot
    obtain rfl : i = k := by omega
    have := hfull err ho hcode
    omega

/-- What is reached by the codes is an attempt that is made. -/
theorem Ran.lt_attempts (hr : Ran h outcomes r) (hmax : i+1 < MAX_SEQUENCE_RETRIES)
    (hi : Collides h outcomes i) : i < r.attempts := by
  obtain ⟨k,hk,-,hfull⟩ := hr.last
  by_contra hnot
  obtain ⟨err,ho,hcode⟩ := hi k (by omega)
  have := hfull err ho hcode
  omega

theorem Ran.agrees_iff (hr : Ran h outcomes r) : Agrees h outcomes r ↔ Legible h outcomes := by
  constructor
  · intro hagrees i err hmax hi ho
    have hmade := hr.lt_attempts hmax hi
    rw [not_misread_iff,← hr.retries_iff hmade hmax ho]
    exact hagrees.retries i err hmade hmax ho
  · intro hlegible
    obtain ⟨k,hk,hsettled,-⟩ := hr.last
    refine ⟨hr.bounded,?_,?_,k,hk,hsettled⟩
    · intro i err hi hmax ho
      have hcollides : Collides h outcomes i := fun j hj => hr.collides j (by omega)
      rw [hr.retries_iff hi hmax ho]
      exact not_misread_iff.mp (hlegible i err hmax hcollides ho)
    · intro i hi
      obtain ⟨err,ho,-⟩ := hr.collides i (by omega)
      exact ⟨err,ho⟩

/-- The retries agree with the mapping of errors exactly when no attempt that is made, but
for the last, throws a value that the two read differently. -/
theorem insertWithSequence_agrees_iff (h : Heap) (outcomes : ℕ → Outcome α) :
    ∃ r, (∀ fuel, MAX_SEQUENCE_RETRIES < fuel → insertWithSequence h outcomes fuel = some r) ∧
      (Agrees h outcomes r ↔ Legible h outcomes) := by
  obtain ⟨r,hleaves,hr⟩ := leaves_ran h outcomes
  exact ⟨r,hleaves,hr.agrees_iff⟩

/-- An error of the ORM with an error of the driver as its cause. -/
def wrapped : Heap
  | 0 => ⟨.undefined,.object 1⟩
  | _ => ⟨.text "23505",.undefined⟩

theorem insertWithSequence_gives_up :
    mapPgError wrapped (.object 0) = some ⟨409,.conflict,"Resource already exists"⟩ ∧
      insertWithSequence wrapped (fun i => if i = 0 then .thrown (.object 0) else .row "m") 4 =
        some ⟨1,.rethrown (.object 0)⟩ ∧
      ¬ Agrees wrapped (fun i => if i = 0 then .thrown (.object 0) else .row "m")
        ⟨1,.rethrown (.object 0)⟩ := by
  have hmap : mapPgError wrapped (.object 0) = some ⟨409,.conflict,"Resource already exists"⟩ := by decide
  refine ⟨hmap,by decide,fun hagrees => ?_⟩
  have hretry := (hagrees.retries 0 (.object 0) (by decide) (by decide) rfl).mpr ⟨_,hmap,rfl⟩
  exact absurd hretry (by decide)

/-! ### The machine of `send` -/

/-- What a failed statement throws: the error of the driver, wrapped or not. -/
def thrownBy (x : Externals) (err : DbError) : Heap
  | 0 => if x.wrapsErrors then ⟨.undefined,.object 1⟩ else ⟨.text err.code,.undefined⟩
  | _ => ⟨.text err.code,.undefined⟩

theorem code_thrownBy (x : Externals) (err : DbError) :
    (Value.object 0).code (thrownBy x err) = .text "23505" ↔ x.visibleCode err = some "23505" := by
  by_cases hx : x.wrapsErrors = true
  · simp [Value.code,thrownBy,Externals.visibleCode,hx]
  · simp [Value.code,thrownBy,Externals.visibleCode,hx]

/-- With an ORM that wraps errors every collision is misread. -/
theorem misread_thrownBy (x : Externals) (err : DbError) :
    Misread (thrownBy x err) (.object 0) ↔ x.wrapsErrors = true ∧ err.code = "23505" := by
  have hend : ∀ n, findWithin (thrownBy x err) n .undefined = none := by
    intro n
    cases n <;> simp [findWithin]
  by_cases hx : x.wrapsErrors = true
  · have hcause : (thrownBy x err 0).cause = .object 1 := by simp [thrownBy,hx]
    have hnone : sqlState? (thrownBy x err 0).code = none := by simp [thrownBy,hx,sqlState?]
    have hcode : (thrownBy x err 1).code = .text err.code := rfl
    rw [Misread,hcause,findWithin,hcode]
    cases hs : sqlState? (.text err.code) with
    | some code =>
      obtain rfl : err.code = code := Value.text.inj (eq_text_of_sqlState? hs)
      simp [hnone,hx]
    | none =>
      have hne : err.code ≠ "23505" := by
        intro he
        rw [he,sqlState?_collision] at hs
        cases hs
      have hundefined : (thrownBy x err 1).cause = .undefined := rfl
      simp [hundefined,hend,hne]
  · have hundefined : (thrownBy x err 0).cause = .undefined := by simp [thrownBy,hx]
    simp [Misread,hundefined,hend,hx]

/-- The machine begins again exactly when the loop goes on. -/
theorem step_rollback_iff {outcomes : ℕ → Outcome α} {x : Externals} {p : ℕ} {ch : Choice} {w w' : World}
    {a : SendAttempt} {err : DbError} {q : Send} (ha : a.attempt < MAX_SEQUENCE_RETRIES)
    (ho : outcomes a.attempt = .thrown (.object 0))
    (hstep : Send.step x p ch w (.rollback a err) = some (q,w')) :
    q = .begin { a with attempt := a.attempt+1 } ↔
      pass (thrownBy x err) outcomes a.attempt = .next (a.attempt+1) := by
  simp only [Send.step] at hstep
  simp only [pass,if_pos ha,ho,code_thrownBy]
  split_ifs at hstep ⊢ with hretry
  · obtain ⟨rfl,-⟩ := Prod.mk.inj (Option.some.inj hstep)
    simp
  · obtain ⟨rfl,-⟩ := Prod.mk.inj (Option.some.inj hstep)
    simp

end SequenceRetries

end ZevraServer
