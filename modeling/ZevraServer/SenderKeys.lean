import ZevraServer.Interleaving
import ZevraServer.RawIds
import ZevraServer.Statements

/-!
# `KeysService.uploadSenderKeys`

An upload replaces the keys of its owner, group and epoch: a transaction deletes the
rows it finds and inserts its own. Nothing is locked before the deletion, so what
the deletion has not seen stays; only the unique index of the table can then stop
the upload. `xmin` is PostgreSQL's hidden column with the transaction that inserted
a row; the world lists the uploads that have committed.
-/

namespace ZevraServer.SenderKeys

open ReadCommitted Interleaving

/-! ### Tables -/

/-- Whose keys an upload replaces. -/
structure Triple where
  ownerId : Uuid
  groupId : Uuid
  epoch : ℕ
  deriving DecidableEq, Repr

/-- A row of `sender_keys`; `xmin` is empty for rows that were there before the run. -/
structure SenderKeyRow where
  xmin : Option ℕ
  groupId : Uuid
  epoch : ℕ
  encryptedKey : String
  keySignature : String
  ownerId : Uuid
  receiverId : Uuid
  deriving DecidableEq, Repr

def SenderKeyRow.triple (r : SenderKeyRow) : Triple := ⟨r.ownerId,r.groupId,r.epoch⟩

/-- A row of `memberships`. -/
structure Membership where
  userId : Uuid
  channelId : Uuid
  leftAt : Option ℕ
  deriving DecidableEq, Repr

structure Db where
  users : List Uuid
  memberships : List Membership
  senderKeys : List SenderKeyRow
  deriving DecidableEq, Repr

inductive Change
  | delete (rows : List SenderKeyRow)
  | insert (rows : List SenderKeyRow)
  deriving DecidableEq, Repr

def Db.apply : Change → Db → Db
  | .delete rows, db => { db with senderKeys := db.senderKeys.filter (· ∉ rows) }
  | .insert rows, db => { db with senderKeys := db.senderKeys++rows }

instance : Writable Change Db := ⟨Db.apply⟩

/-- Rows, and keys of the unique index on group, owner, receiver and epoch. -/
inductive Lockable
  | row (r : SenderKeyRow)
  | key (t : Triple) (receiverId : Uuid)
  deriving DecidableEq, Repr

abbrev Postgres := Pg Db Change Lockable

/-! ### Requests -/

structure SenderKeyItem where
  receiverId : RawId
  encryptedKey : String
  keySignature : String
  deriving DecidableEq, Repr

/-- The arguments; the validator asks for at least one item. -/
structure Upload where
  ownerId : Uuid
  groupId : RawId
  epoch : ℕ
  items : List SenderKeyItem
  items_ne : items ≠ []
  deriving DecidableEq, Repr

namespace Upload

variable (u : Upload)

def triple : Triple := ⟨u.ownerId,.ofText u.groupId,u.epoch⟩

def receiverIds : List RawId := u.items.map (·.receiverId)

/-- The values the texts of the receivers stand for. -/
def receivers : List Uuid := u.receiverIds.map .ofText

/-- `values`, as the transaction `p` inserts them. -/
def rows (p : ℕ) : List SenderKeyRow :=
  u.items.map fun i =>
    ⟨some p,.ofText u.groupId,u.epoch,i.encryptedKey,i.keySignature,u.ownerId,.ofText i.receiverId⟩

/-- `SELECT userId ... WHERE channelId AND userId IN (...) AND leftAt IS NULL`. -/
def memberRows (db : Db) : List RawId :=
  (db.memberships.filter fun m => m.channelId = .ofText u.groupId ∧
    m.userId ∈ u.ownerId::u.receivers ∧ m.leftAt = none).map fun m => m.userId.text

/-- The exception thrown before the transaction, if any. -/
def refuse? (db : Db) : Option HttpError :=
  if u.ownerId.text ∉ u.memberRows db then some (.forbidden "Not a member of this group")
  else if u.receiverIds.dedup.filter (· ∉ u.memberRows db) ≠ [] then
    some (.badRequest "All receivers must be members of this group")
  else none

end Upload

/-! ### Statements -/

def rowLocks (rows : List SenderKeyRow) : List (Lockable × Mode) := rows.map fun r => (.row r,.update)

def insertLocks (rows : List SenderKeyRow) : List (Lockable × Mode) :=
  rows.flatMap fun r => [(.row r,.update),(.key r.triple r.receiverId,.update)]

/-- The constraint a row of an insertion violates, if any. -/
def rowViolation (db : Db) (r : SenderKeyRow) : Option DbError :=
  if ∃ s ∈ db.senderKeys, s.triple = r.triple ∧ s.receiverId = r.receiverId then
    some (uniqueViolation "idx_sender_keys_group_owner_receiver_epoch")
  else if r.ownerId ∉ db.users then some (foreignKeyViolation "sender_keys_owner_id_users_id_fk")
  else if r.receiverId ∉ db.users then some (foreignKeyViolation "sender_keys_receiver_id_users_id_fk")
  else none

/-- The first violation, each row checked after the rows before it. -/
def violation (db : Db) : List SenderKeyRow → Option DbError
  | [] => none
  | r::rs =>
    match rowViolation db r with
    | some err => some err
    | none => violation (db.apply (.insert [r])) rs

/-- `INSERT INTO sender_keys` of several rows. -/
def insertRows (pg : Postgres) (p : ℕ) (rows : List SenderKeyRow) : Option (Except DbError Postgres) :=
  if pg.allFree p (insertLocks rows) then
    match violation (pg.view p) rows with
    | some err => some (.error err)
    | none => (pg.statement p (insertLocks rows) [.insert rows]).map .ok
  else none

/-! ### `uploadSenderKeys` -/

structure World where
  pg : Postgres
  committed : List Upload

inductive UploadSenderKeys
  | select (u : Upload)
  | remove (u : Upload)
  | removing (u : Upload) (rows : List SenderKeyRow)
  | insert (u : Upload)
  | commit (u : Upload)
  | rollback (err : DbError)
  | done
  | failed (err : HttpError)
  deriving DecidableEq, Repr

/-- The value of `epoch` does not fit the `integer` column. -/
def outOfRange : DbError := ⟨"22003",none⟩

def UploadSenderKeys.step (p : ℕ) (ch : Choice) (w : World) :
    UploadSenderKeys → Option (UploadSenderKeys × World)
  | .select u =>
    if u.receiverIds.dedup.length ≠ u.items.length then
      some (.failed (.badRequest "Duplicate receiverId in items"),w)
    else if ch.fail then some (.failed (.database aborted),w)
    else match u.refuse? w.pg.db with
      | some err => some (.failed err,w)
      | none => some (.remove u,w)
  | .remove u =>
    if ch.fail then some (.rollback aborted,w)
    else if MAX_INTEGER < u.epoch then some (.rollback outOfRange,w)
    else some (.removing u ((w.pg.view p).senderKeys.filter fun r => r.triple = u.triple),w)
  | .removing u rows =>
    if ch.fail then some (.rollback aborted,w)
    else (w.pg.statement p (rowLocks rows) [.delete rows]).map fun pg => (.insert u,{ w with pg := pg })
  | .insert u =>
    if ch.fail then some (.rollback aborted,w)
    else match insertRows w.pg p (u.rows p) with
      | none => none
      | some (.error err) => some (.rollback err,w)
      | some (.ok pg) => some (.commit u,{ w with pg := pg })
  | .commit u =>
    if ch.fail then some (.rollback aborted,w)
    else some (.done,⟨w.pg.commit p,w.committed++[u]⟩)
  | .rollback err => some (.failed (.database err),{ w with pg := w.pg.rollback p })
  | .done => none
  | .failed _ => none

def system : System World UploadSenderKeys Choice Empty where
  step p q ch w := q.step p ch w
  env e _ := e.elim

/-! ### What a table should hold -/

def rowsOf (db : Db) (t : Triple) : List SenderKeyRow := db.senderKeys.filter fun r => r.triple = t

/-- Receiver, key and signature. -/
abbrev Content := Uuid × String × String

def SenderKeyRow.content (r : SenderKeyRow) : Content := (r.receiverId,r.encryptedKey,r.keySignature)

def Upload.content (u : Upload) : List Content :=
  u.items.map fun i => (.ofText i.receiverId,i.encryptedKey,i.keySignature)

/-- The upload of the triple that committed last. -/
def latest (us : List Upload) (t : Triple) : Option Upload := (us.filter fun u => u.triple = t).getLast?

/-- The rows of the triple are the items of the upload, one for each receiver. -/
def Upload.Installed (u : Upload) (db : Db) : Prop :=
  (rowsOf db u.triple).map SenderKeyRow.content = u.content ∧ u.receivers.Nodup

/-- Every triple has the items of its latest upload, or what it had at the start. -/
def Replaced (w₀ w : World) : Prop :=
  ∀ t, (∀ u, latest w.committed t = some u → u.Installed w.pg.db) ∧
    (latest w.committed t = none → rowsOf w.pg.db t = rowsOf w₀.pg.db t)

/-! ### Uploads that meet -/

/-- The upload has begun its deletion and its transaction is open. -/
def UploadSenderKeys.open? : UploadSenderKeys → Option Upload
  | .removing u _ => some u
  | .insert u => some u
  | .commit u => some u
  | _ => none

/-- Two uploads have a receiver in common. -/
def Upload.Meets (u v : Upload) : Prop := ∃ i ∈ u.receivers, i ∈ v.receivers

instance (u v : Upload) : Decidable (u.Meets v) := by
  unfold Upload.Meets
  infer_instance

theorem Upload.Meets.symm {u v : Upload} (h : u.Meets v) : v.Meets u := by
  obtain ⟨i,hu,hv⟩ := h
  exact ⟨i,hv,hu⟩

/-- A deletion begins when every open upload of the same triple has a receiver in common. -/
def UploadSenderKeys.InTurn (c : Config World UploadSenderKeys) : UploadSenderKeys → Prop
  | .remove u => ∀ s ∈ c.pool, ∀ v ∈ s.open?, v.triple = u.triple → v.Meets u
  | _ => True

inductive UploadSenderKeys.Starts : UploadSenderKeys → Prop
  | select (u : Upload) : Starts (.select u)

def Orderly (c : Config World UploadSenderKeys) : Label UploadSenderKeys Choice Empty → Prop
  | .spawn q => q.Starts
  | .run p _ => ∀ q, c.pool[p]? = some q → q.InTurn c
  | .env _ => True

end ZevraServer.SenderKeys
