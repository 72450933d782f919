import Mathlib.Logic.Function.Basic
import Mathlib.Data.List.Basic
import Mathlib.Tactic.Common

/-!
# Read-committed transactions with row locks

The committed database is a value of `D`. An open transaction is a list of row
writes that only its owner sees; a commit applies them to the committed database
and releases the owner's locks in the same step. A statement reads the committed
rows and its own transaction's writes, and takes its locks in one of the four
PostgreSQL row-lock modes; it is not enabled while another owner holds a
conflicting lock. Unique keys and advisory locks are lockable resources as well:
an insertion locks the key it claims, so a second insertion of the key waits for
the first transaction to end.

`Discipline` is what lock holders may rely on: a preorder for each resource that
every other owner keeps while the resource is locked, and a preorder that all
commits keep.
-/

set_option linter.unusedSectionVars false

namespace ReadCommitted

/-- PostgreSQL's row-lock modes. -/
inductive Mode
  | keyShare | share | noKeyUpdate | update
  deriving DecidableEq, Repr

/-- PostgreSQL's row-lock conflict table. -/
def Mode.conflicts : Mode → Mode → Bool
  | .keyShare, .update => true
  | .share, .noKeyUpdate | .share, .update => true
  | .noKeyUpdate, .share | .noKeyUpdate, .noKeyUpdate | .noKeyUpdate, .update => true
  | .update, _ => true
  | _, _ => false

theorem Mode.conflicts_comm (a b : Mode) : a.conflicts b = b.conflicts a := by
  cases a <;> cases b <;> rfl

/-- Every mode conflicts with `FOR UPDATE`. -/
@[simp] theorem Mode.update_conflicts (a : Mode) : Mode.update.conflicts a = true := by
  cases a <;> rfl

structure Lock (L : Type) where
  owner : ℕ
  on : L
  mode : Mode
  deriving DecidableEq

/-- A row write changes the database it is applied to. -/
class Writable (W D : Type) where
  apply : W → D → D

variable {D W L : Type} [Writable W D] [DecidableEq L]

def applyAll (ws : List W) (d : D) : D := ws.foldl (fun d w => Writable.apply w d) d

@[simp] theorem applyAll_nil (d : D) : applyAll ([] : List W) d = d := rfl
@[simp] theorem applyAll_cons (w : W) (ws : List W) (d : D) :
    applyAll (w::ws) d = applyAll ws (Writable.apply w d) := rfl
@[simp] theorem applyAll_append (ws vs : List W) (d : D) :
    applyAll (ws++vs) d = applyAll vs (applyAll ws d) := by
  simp [applyAll]

/-- The committed database, the writes of every open transaction and the lock table. -/
structure Pg (D W L : Type) where
  db : D
  pending : ℕ → List W
  locks : List (Lock L)

namespace Pg

/-- What a statement of transaction `p` reads. -/
def view (pg : Pg D W L) (p : ℕ) : D := applyAll (pg.pending p) pg.db

def free (pg : Pg D W L) (p : ℕ) (l : L) (m : Mode) : Bool :=
  pg.locks.all fun k => k.owner == p || k.on != l || !k.mode.conflicts m

def allFree (pg : Pg D W L) (p : ℕ) (ls : List (L × Mode)) : Bool :=
  ls.all fun l => pg.free p l.1 l.2

/-- Take the locks of a statement, unless another owner holds a conflicting one. -/
def acquire (pg : Pg D W L) (p : ℕ) (ls : List (L × Mode)) : Option (Pg D W L) :=
  if pg.allFree p ls then some { pg with locks := ls.map (fun l => ⟨p,l.1,l.2⟩)++pg.locks } else none

def write (pg : Pg D W L) (p : ℕ) (ws : List W) : Pg D W L :=
  { pg with pending := Function.update pg.pending p (pg.pending p++ws) }

/-- A writing statement of an open transaction. -/
def statement (pg : Pg D W L) (p : ℕ) (ls : List (L × Mode)) (ws : List W) : Option (Pg D W L) :=
  (pg.acquire p ls).map fun pg => pg.write p ws

def release (pg : Pg D W L) (p : ℕ) : List (Lock L) := pg.locks.filter fun k => k.owner != p

def commit (pg : Pg D W L) (p : ℕ) : Pg D W L :=
  ⟨pg.view p,Function.update pg.pending p [],pg.release p⟩

def rollback (pg : Pg D W L) (p : ℕ) : Pg D W L :=
  ⟨pg.db,Function.update pg.pending p [],pg.release p⟩

/-- A writing statement outside a transaction commits in the step that executes it. -/
def auto (pg : Pg D W L) (p : ℕ) (ls : List (L × Mode)) (ws : List W) : Option (Pg D W L) :=
  if pg.allFree p ls then some { pg with db := applyAll ws pg.db } else none

def Holds (pg : Pg D W L) (p : ℕ) (l : L) (m : Mode) : Prop := ⟨p,l,m⟩ ∈ pg.locks

/-- The transaction of `p` is closed: it has no pending write and no lock. -/
structure Idle (pg : Pg D W L) (p : ℕ) : Prop where
  pending : pg.pending p = []
  locks : ∀ k ∈ pg.locks, k.owner ≠ p

/-- No two owners hold conflicting locks. -/
def Sound (pg : Pg D W L) : Prop :=
  ∀ k ∈ pg.locks, ∀ k' ∈ pg.locks, k.owner ≠ k'.owner → k.on = k'.on → k.mode.conflicts k'.mode = false

@[simp] theorem write_db (pg : Pg D W L) (p : ℕ) (ws : List W) : (pg.write p ws).db = pg.db := rfl
@[simp] theorem write_locks (pg : Pg D W L) (p : ℕ) (ws : List W) :
    (pg.write p ws).locks = pg.locks := rfl
@[simp] theorem write_pending (pg : Pg D W L) (p : ℕ) (ws : List W) :
    (pg.write p ws).pending p = pg.pending p++ws := by simp [write]
@[simp] theorem commit_db (pg : Pg D W L) (p : ℕ) : (pg.commit p).db = pg.view p := rfl
@[simp] theorem rollback_db (pg : Pg D W L) (p : ℕ) : (pg.rollback p).db = pg.db := rfl

theorem free_of_acquire {pg pg' : Pg D W L} {p : ℕ} {ls : List (L × Mode)}
    (h : pg.acquire p ls = some pg') :
    pg.allFree p ls = true ∧ pg' = { pg with locks := ls.map (fun l => ⟨p,l.1,l.2⟩)++pg.locks } := by
  unfold acquire at h
  split at h
  · rename_i hf
    exact ⟨hf,(Option.some.inj h).symm⟩
  · simp at h

theorem statement_eq {pg pg' : Pg D W L} {p : ℕ} {ls : List (L × Mode)} {ws : List W}
    (h : pg.statement p ls ws = some pg') :
    ∃ mid, pg.acquire p ls = some mid ∧ pg' = mid.write p ws := by
  obtain ⟨mid,hm,rfl⟩ := Option.map_eq_some_iff.mp h
  exact ⟨mid,hm,rfl⟩

theorem auto_eq {pg pg' : Pg D W L} {p : ℕ} {ls : List (L × Mode)} {ws : List W}
    (h : pg.auto p ls ws = some pg') :
    pg.allFree p ls = true ∧ pg' = { pg with db := applyAll ws pg.db } := by
  unfold auto at h
  split at h
  · rename_i hf
    exact ⟨hf,(Option.some.inj h).symm⟩
  · simp at h

theorem acquire_spec {pg pg' : Pg D W L} {p : ℕ} {ls : List (L × Mode)}
    (h : pg.acquire p ls = some pg') :
    pg'.db = pg.db ∧ pg'.pending = pg.pending ∧ (∀ l m, (l,m) ∈ ls → pg'.Holds p l m) ∧
      ∀ q l m, pg.Holds q l m → pg'.Holds q l m := by
  obtain ⟨_,rfl⟩ := free_of_acquire h
  refine ⟨rfl,rfl,fun l m hm => ?_,fun q l m hq => ?_⟩
  · exact List.mem_append_left _ (List.mem_map.mpr ⟨(l,m),hm,rfl⟩)
  · exact List.mem_append_right _ hq

theorem statement_spec {pg pg' : Pg D W L} {p : ℕ} {ls : List (L × Mode)} {ws : List W}
    (h : pg.statement p ls ws = some pg') :
    pg'.db = pg.db ∧ pg'.pending p = pg.pending p++ws ∧ (∀ l m, (l,m) ∈ ls → pg'.Holds p l m) ∧
      ∀ q l m, pg.Holds q l m → pg'.Holds q l m := by
  obtain ⟨mid,hm,rfl⟩ := statement_eq h
  obtain ⟨hdb,hp,hnew,hold⟩ := acquire_spec hm
  exact ⟨hdb,by simp [hp],hnew,hold⟩

theorem free_iff (pg : Pg D W L) (p : ℕ) (l : L) (m : Mode) :
    pg.free p l m = true ↔
      ∀ k ∈ pg.locks, k.owner ≠ p → k.on = l → k.mode.conflicts m = false := by
  simp only [free,List.all_eq_true,Bool.or_eq_true,beq_iff_eq,bne_iff_ne,Bool.not_eq_true']
  constructor
  · intro h k hk ho hl
    rcases h k hk with (h | h) | h
    · exact absurd h ho
    · exact absurd hl h
    · exact h
  · intro h k hk
    by_cases ho : k.owner = p
    · exact .inl (.inl ho)
    · by_cases hl : k.on = l
      · exact .inr (h k hk ho hl)
      · exact .inl (.inr hl)

theorem Sound.acquire {pg pg' : Pg D W L} {p : ℕ} {ls : List (L × Mode)} (hs : pg.Sound)
    (h : pg.acquire p ls = some pg') : pg'.Sound := by
  obtain ⟨hf,rfl⟩ := free_of_acquire h
  have hfree : ∀ l ∈ ls, ∀ k ∈ pg.locks, k.owner ≠ p → k.on = l.1 → k.mode.conflicts l.2 = false := by
    intro l hl
    exact (free_iff pg p l.1 l.2).mp (List.all_eq_true.mp hf l hl)
  intro k hk k' hk' ho hon
  simp only [List.mem_append,List.mem_map] at hk hk'
  rcases hk with ⟨l,hl,rfl⟩ | hk <;> rcases hk' with ⟨l',hl',rfl⟩ | hk'
  · exact absurd rfl ho
  · rw [Mode.conflicts_comm]
    exact hfree l hl k' hk' (Ne.symm ho) hon.symm
  · exact hfree l' hl' k hk ho hon
  · exact hs k hk k' hk' ho hon

theorem Sound.statement {pg pg' : Pg D W L} {p : ℕ} {ls : List (L × Mode)} {ws : List W}
    (hs : pg.Sound) (h : pg.statement p ls ws = some pg') : pg'.Sound := by
  obtain ⟨mid,hm,rfl⟩ := statement_eq h
  have hmid : mid.Sound := hs.acquire hm
  exact hmid

theorem Sound.release {pg : Pg D W L} (hs : pg.Sound) (d : D) (f : ℕ → List W) (p : ℕ) :
    (⟨d,f,pg.release p⟩ : Pg D W L).Sound := by
  intro k hk k' hk' ho hon
  exact hs k (List.mem_of_mem_filter hk) k' (List.mem_of_mem_filter hk') ho hon

/-- A resource locked `FOR UPDATE` is locked by nobody else, in any mode. -/
theorem Sound.exclusive {pg : Pg D W L} (hs : pg.Sound) {p q : ℕ} {l : L} {m : Mode}
    (hp : pg.Holds p l .update) (hq : pg.Holds q l m) : q = p := by
  by_contra hne
  have hc := hs _ hp _ hq (Ne.symm hne) rfl
  simp at hc

theorem not_free_of_holds {pg : Pg D W L} {p q : ℕ} {l : L} {m : Mode}
    (hp : pg.Holds p l .update) (hne : p ≠ q) : pg.free q l m = false := by
  by_contra hf
  have h := (free_iff pg q l m).mp (by simpa using hf) _ hp hne rfl
  simp at h

theorem Idle.commit (pg : Pg D W L) (p : ℕ) : (pg.commit p).Idle p :=
  ⟨by simp [Pg.commit],fun k hk => by simpa using List.of_mem_filter hk⟩

theorem Idle.rollback (pg : Pg D W L) (p : ℕ) : (pg.rollback p).Idle p :=
  ⟨by simp [Pg.rollback],fun k hk => by simpa using List.of_mem_filter hk⟩

@[simp] theorem Idle.view {pg : Pg D W L} {p : ℕ} (h : pg.Idle p) : pg.view p = pg.db := by
  simp [Pg.view,h.pending]

end Pg

/-- What the holder of a lock relies on. `keeps l` is kept by every other owner while
`l` is locked `FOR UPDATE`; `grows` is kept by every commit. -/
structure Discipline (D L : Type) where
  keeps : L → D → D → Prop
  grows : D → D → Prop
  keeps_refl : ∀ l d, keeps l d d
  keeps_trans : ∀ {l d e f}, grows d e → keeps l d e → keeps l e f → keeps l d f
  grows_refl : ∀ d, grows d d
  grows_trans : ∀ {d e f}, grows d e → grows e f → grows d f

namespace Discipline

/-- The discipline that promises nothing of the tables: transactions and locks are still
their owners'. -/
def free (D L : Type) : Discipline D L where
  keeps _ _ _ := True
  grows _ _ := True
  keeps_refl _ _ := trivial
  keeps_trans _ _ _ := trivial
  grows_refl _ := trivial
  grows_trans _ _ := trivial

variable (R : Discipline D L)

/-- What transaction `p` relies on while other transactions run. -/
structure Rely (p : ℕ) (pg pg' : Pg D W L) : Prop where
  pending : pg'.pending p = pg.pending p
  locks : ∀ l m, pg'.Holds p l m ↔ pg.Holds p l m
  keeps : ∀ l, pg.Holds p l .update → R.keeps l pg.db pg'.db
  grows : R.grows pg.db pg'.db

variable {R}

theorem Rely.refl (p : ℕ) (pg : Pg D W L) : R.Rely p pg pg :=
  ⟨rfl,fun _ _ => Iff.rfl,fun l _ => R.keeps_refl l pg.db,R.grows_refl pg.db⟩

theorem Rely.idle {p : ℕ} {pg pg' : Pg D W L} (h : R.Rely p pg pg') (hi : pg.Idle p) : pg'.Idle p :=
  ⟨h.pending.trans hi.pending,fun k hk ho => hi.locks k (by
    have := (h.locks k.on k.mode).mp (by subst ho; exact hk)
    subst ho
    exact this) ho⟩

/-- The steps of transaction `p` keep what every other transaction relies on. -/
def Guarantee (R : Discipline D L) (p : ℕ) (pg pg' : Pg D W L) : Prop :=
  ∀ r, r ≠ p → R.Rely r pg pg'

theorem Guarantee.refl (p : ℕ) (pg : Pg D W L) : R.Guarantee p pg pg := fun r _ => Rely.refl r pg

private theorem rely_same_db {r p : ℕ} {pg pg' : Pg D W L} (hne : r ≠ p)
    (hp : ∀ q, q ≠ p → pg'.pending q = pg.pending q)
    (hl : ∀ k : Lock L, k.owner ≠ p → (k ∈ pg'.locks ↔ k ∈ pg.locks))
    (hdb : pg'.db = pg.db) : R.Rely r pg pg' := by
  refine ⟨hp r hne,fun l m => hl ⟨r,l,m⟩ hne,fun l _ => ?_,?_⟩
  · rw [hdb]
    exact R.keeps_refl l _
  · rw [hdb]
    exact R.grows_refl _

theorem Guarantee.acquire {p : ℕ} {pg pg' : Pg D W L} {ls : List (L × Mode)}
    (h : pg.acquire p ls = some pg') : R.Guarantee p pg pg' := by
  obtain ⟨_,rfl⟩ := Pg.free_of_acquire h
  intro r hr
  refine rely_same_db hr (fun _ _ => rfl) (fun k hk => ?_) rfl
  simp only [List.mem_append,List.mem_map]
  constructor
  · rintro (⟨l,_,rfl⟩ | hm)
    · exact absurd rfl hk
    · exact hm
  · exact .inr

theorem Guarantee.statement {p : ℕ} {pg pg' : Pg D W L} {ls : List (L × Mode)} {ws : List W}
    (h : pg.statement p ls ws = some pg') : R.Guarantee p pg pg' := by
  obtain ⟨mid,hm,rfl⟩ := Pg.statement_eq h
  obtain ⟨_,rfl⟩ := Pg.free_of_acquire hm
  intro r hr
  refine rely_same_db hr (fun q hq => ?_) (fun k hk => ?_) rfl
  · simp [Pg.write,hq]
  · simp only [Pg.write_locks,List.mem_append,List.mem_map]
    constructor
    · rintro (⟨l,_,rfl⟩ | hm)
      · exact absurd rfl hk
      · exact hm
    · exact .inr

private theorem mem_release {pg : Pg D W L} {p : ℕ} {k : Lock L} (hk : k.owner ≠ p) :
    k ∈ pg.release p ↔ k ∈ pg.locks := by
  simp [Pg.release,hk]

theorem Guarantee.rollback (p : ℕ) (pg : Pg D W L) : R.Guarantee p pg (pg.rollback p) := by
  intro r hr
  exact rely_same_db hr (fun q hq => by simp [Pg.rollback,hq]) (fun k hk => mem_release hk) rfl

/-- A commit keeps the guarantee if every part it changes is locked by the committing
transaction, in any mode. -/
theorem Guarantee.commit {p : ℕ} {pg : Pg D W L} (hs : pg.Sound)
    (hk : ∀ l, R.keeps l pg.db (pg.view p) ∨ ∃ m, pg.Holds p l m)
    (hg : R.grows pg.db (pg.view p)) : R.Guarantee p pg (pg.commit p) := by
  intro r hr
  refine ⟨by simp [Pg.commit,hr],fun l m => mem_release hr,fun l hl => ?_,hg⟩
  rcases hk l with h | ⟨m,hm⟩
  · exact h
  · exact absurd (hs.exclusive hl hm).symm hr

theorem Guarantee.commit_free {p : ℕ} {pg : Pg D W L} (hs : pg.Sound) :
    (Discipline.free D L).Guarantee p pg (pg.commit p) :=
  .commit hs (fun _ => .inl trivial) trivial

/-- The same for a change that commits at once: the changed parts are among the resources
found free. -/
theorem Guarantee.change {p : ℕ} {pg : Pg D W L} {ls : List (L × Mode)} {d : D}
    (hf : pg.allFree p ls = true) (hk : ∀ l, R.keeps l pg.db d ∨ ∃ m, (l,m) ∈ ls)
    (hg : R.grows pg.db d) : R.Guarantee p pg { pg with db := d } := by
  intro r hr
  refine ⟨rfl,fun _ _ => Iff.rfl,fun l hl => ?_,hg⟩
  rcases hk l with h | ⟨m,hm⟩
  · exact h
  · have hfree : pg.free p l m = true := List.all_eq_true.mp hf (l,m) hm
    rw [Pg.not_free_of_holds hl hr] at hfree
    simp at hfree

theorem Guarantee.auto {p : ℕ} {pg pg' : Pg D W L} {ls : List (L × Mode)} {ws : List W}
    (h : pg.auto p ls ws = some pg')
    (hk : ∀ l, R.keeps l pg.db (applyAll ws pg.db) ∨ ∃ m, (l,m) ∈ ls)
    (hg : R.grows pg.db (applyAll ws pg.db)) : R.Guarantee p pg pg' := by
  obtain ⟨hf,rfl⟩ := Pg.auto_eq h
  exact .change hf hk hg

end Discipline

end ReadCommitted
