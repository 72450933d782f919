import ZevraServer.Edges

/-!
# `archive`

The calls of the server together with `archive`, which flips the flag of a channel in one
`UPDATE`. The statement takes the lock of the row it changes, so it waits for every
transaction that holds the row, and the outline of the server holds of both.
-/

namespace ZevraServer.Posting

open ReadCommitted Interleaving

/-! ### The call -/

structure ArchiveArgs where
  channelId : Uuid
  userId : Uuid
  deriving DecidableEq, Repr

/-- `SET isArchived = v WHERE id = c`, on one row. -/
def setArchived (c : Uuid) (v : Bool) (r : ChannelRow) : ChannelRow :=
  if r.id = c then { r with isArchived := v } else r

def archived (db : Db) (c : Uuid) (v : Bool) : Db :=
  { db with channels := db.channels.map (setArchived c v) }

/-- The `UPDATE` outside a transaction. -/
def updateArchived (pg : Postgres) (p : ℕ) (c : Uuid) (v : Bool) : Option Postgres :=
  match pg.db.channel? c with
  | none => some pg
  | some _ =>
    if pg.allFree p [(.channel c,.noKeyUpdate)] then some { pg with db := archived pg.db c v } else none

inductive Archive
  | role (a : ArchiveArgs)
  | select (a : ArchiveArgs)
  | update (a : ArchiveArgs) (isArchived : Bool)
  | done (isArchived : Bool)
  | failed (err : HttpError)
  deriving DecidableEq, Repr

def Archive.step (p : ℕ) (ch : Choice) (w : World) : Archive → Option (Archive × World)
  | .role a =>
    some (if ch.fail then .failed (.database aborted)
      else if (w.pg.db.membership? a.userId a.channelId).any (·.role = .admin) then .select a
      else .failed (.forbidden "Only admins can archive channels"),w)
  | .select a =>
    some (if ch.fail then .failed (.database aborted)
      else match w.pg.db.channel? a.channelId with
        | none => .failed (.notFound "Channel not found")
        | some c => .update a (!c.isArchived),w)
  | .update a v =>
    if ch.fail then some (.failed (.database aborted),w)
    else (updateArchived w.pg p a.channelId v).map fun pg => (.done v,{ w with pg := pg })
  | .done _ => none
  | .failed _ => none

/-! ### The system -/

inductive Call
  | server (q : ZevraServer.Call)
  | archive (q : Archive)
  deriving DecidableEq, Repr

def Call.step (x : Externals) (p : ℕ) (q : Call) (ch : Choice) (w : World) : Option (Call × World) :=
  match q with
  | .server q => (q.step x p ch w).map fun r => (.server r.1,r.2)
  | .archive q => (q.step p ch w).map fun r => (.archive r.1,r.2)

def posting (x : Externals) : System World Call Choice Event where
  step := Call.step x
  env e w := some (e.apply w)

inductive Call.Initial : Call → Prop
  | server {q} (h : q.Initial) : Initial (.server q)
  | archive (a) : Initial (.archive (.role a))

def Arrives (_ : Config World Call) : Label Call Choice Event → Prop
  | .spawn q => q.Initial
  | _ => True

variable {x : Externals} {p : ℕ} {ch : Choice} {w w' : World} {pg pg' : Postgres} {db : Db} {c : Uuid}
  {v : Bool}

/-! ### The change of the tables -/

@[simp] theorem setArchived_id (c : Uuid) (v : Bool) (r : ChannelRow) : (setArchived c v r).id = r.id := by
  unfold setArchived
  split <;> rfl

@[simp] theorem setArchived_type (c : Uuid) (v : Bool) (r : ChannelRow) :
    (setArchived c v r).type = r.type := by
  unfold setArchived
  split <;> rfl

theorem setArchived_of_ne {r : ChannelRow} (h : r.id ≠ c) (v : Bool) : setArchived c v r = r := by
  simp [setArchived,h]

theorem archived_ids (db : Db) (c : Uuid) (v : Bool) :
    (archived db c v).channels.map (·.id) = db.channels.map (·.id) := by
  simp [archived,Function.comp_def]

theorem hasChannel_archived (db : Db) (c : Uuid) (v : Bool) (i : Uuid) :
    (archived db c v).HasChannel i ↔ db.HasChannel i :=
  Db.hasChannel_congr (archived_ids db c v) i

theorem typed_archived (db : Db) (c : Uuid) (v : Bool) (i : Uuid) (t : ChannelType) :
    (archived db c v).Typed i t ↔ db.Typed i t := by
  constructor
  · rintro ⟨r,hr,hid,ht⟩
    obtain ⟨s,hs,rfl⟩ := List.mem_map.mp hr
    exact ⟨s,hs,by simpa using hid,by simpa using ht⟩
  · rintro ⟨r,hr,hid,ht⟩
    exact ⟨setArchived c v r,List.mem_map_of_mem hr,by simpa using hid,by simpa using ht⟩

theorem channel?_archived_of_ne {i : Uuid} (h : i ≠ c) (db : Db) (v : Bool) :
    (archived db c v).channel? i = db.channel? i := by
  simp only [Db.channel?,archived]
  induction db.channels with
  | nil => rfl
  | cons r l ih =>
    simp only [List.map_cons,List.find?_cons,setArchived_id,ih]
    split
    · rename_i hr
      rw [setArchived_of_ne (by rw [of_decide_eq_true hr]; exact h)]
    · rfl

theorem grows_archived (db : Db) (c : Uuid) (v : Bool) : Grows db (archived db c v) :=
  ⟨fun r hr => ⟨setArchived c v r,List.mem_map_of_mem hr,by simp,by simp⟩,fun _ hm => .inl hm⟩

theorem integrity_archived (hi : Integrity db) (c : Uuid) (v : Bool) : Integrity (archived db c v) := by
  refine ⟨?_,hi.messageIds,fun m hm => ?_,fun m hm => ?_,hi.memberKeys,hi.wiped⟩
  · rw [archived_ids]
    exact hi.channelIds
  · exact (hasChannel_archived db c v _).mpr (hi.messageChannel m hm)
  · exact (hasChannel_archived db c v _).mpr (hi.memberChannel m hm)

/-- Only the row of the channel changes. -/
theorem keeps_archived (db : Db) (c : Uuid) (v : Bool) (l : Resource) :
    keeps x l db (archived db c v) ∨ l = .channel c := by
  cases l with
  | channel i =>
    by_cases hi : i = c
    · exact .inr (by rw [hi])
    · exact .inl ⟨rfl,channel?_archived_of_ne hi db v,rfl⟩
  | channelId i => exact .inl fun hd he => hd ((hasChannel_archived db c v i).mp he)
  | messageId i => exact .inl fun hd => hd
  | advisory k =>
    exact .inl fun a b _ _ i hi => ⟨(typed_archived db c v i .direct).mp hi.1,hi.2.1,hi.2.2⟩
  | _ => exact .inl trivial

theorem updateArchived_spec (hs : Sane pg) (h : updateArchived pg p c v = some pg') :
    Sane pg' ∧ (discipline x).Guarantee p pg pg' ∧ (pg.Idle p → pg'.Idle p) ∧
      (pg'.db = pg.db ∨ pg'.db = archived pg.db c v) := by
  unfold updateArchived at h
  split at h
  · obtain rfl := Option.some.inj h
    exact ⟨hs,.refl p pg,id,.inl rfl⟩
  · split at h
    · rename_i hf
      obtain rfl := Option.some.inj h
      have hguar : (discipline x).Guarantee p pg { pg with db := archived pg.db c v } := by
        refine .change hf (fun l => ?_) (grows_archived pg.db c v)
        rcases keeps_archived (x := x) pg.db c v l with hk | rfl
        · exact .inl hk
        · exact .inr ⟨_,List.mem_singleton.mpr rfl⟩
      exact ⟨⟨hs.sound,integrity_archived hs.integrity c v⟩,hguar,fun hi => ⟨hi.pending,hi.locks⟩,.inr rfl⟩
    · simp at h

/-- A step of `archive`: it leaves the tables alone or flips the flag of one channel. -/
theorem Archive.own {q q' : Archive} (hs : Sane w.pg) (h : w.pg.Idle p)
    (hq : q.step p ch w = some (q',w')) :
    Sane w'.pg ∧ (discipline x).Guarantee p w.pg w'.pg ∧ w'.pg.Idle p ∧
      (w'.pg.db = w.pg.db ∨ ∃ c v, w'.pg.db = archived w.pg.db c v) := by
  cases q with
  | role a =>
    obtain ⟨_,rfl⟩ := Prod.mk.inj (Option.some.inj hq)
    exact ⟨hs,.refl _ _,h,.inl rfl⟩
  | select a =>
    obtain ⟨_,rfl⟩ := Prod.mk.inj (Option.some.inj hq)
    exact ⟨hs,.refl _ _,h,.inl rfl⟩
  | update a v =>
    simp only [step] at hq
    split at hq
    · obtain ⟨_,rfl⟩ := Prod.mk.inj (Option.some.inj hq)
      exact ⟨hs,.refl _ _,h,.inl rfl⟩
    · obtain ⟨pg',hpg,he⟩ := Option.map_eq_some_iff.mp hq
      obtain ⟨_,rfl⟩ := Prod.mk.inj he
      obtain ⟨hsane,hguar,hidle,hdb⟩ := updateArchived_spec (x := x) hs hpg
      exact ⟨hsane,hguar,hidle h,hdb.imp id fun hdb => ⟨_,_,hdb⟩⟩
  | done v => simp [step] at hq
  | failed err => simp [step] at hq

/-! ### The outline -/

def Call.Assert (x : Externals) (p : ℕ) (pg : Postgres) : Call → Prop
  | .server q => q.Assert x p pg
  | .archive _ => pg.Idle p

/-- What a step does to the tables. -/
inductive Call.Changes (q : Call) (d e : Db) : Prop
  | nothing (h : e = d)
  | server (s : ZevraServer.Call) (hq : q = .server s) (h : s.Commits d e)
  | archived (c : Uuid) (v : Bool) (h : e = archived d c v)

theorem Call.own {q q' : Call} (hs : Sane w.pg) (h : q.Assert x p w.pg)
    (hq : q.step x p ch w = some (q',w')) : Sane w'.pg ∧ (discipline x).Guarantee p w.pg w'.pg ∧
      q'.Assert x p w'.pg ∧ q.Changes w.pg.db w'.pg.db := by
  cases q with
  | server s =>
    obtain ⟨⟨s',v⟩,ht,he⟩ := Option.map_eq_some_iff.mp hq
    obtain ⟨rfl,rfl⟩ := Prod.mk.inj he
    obtain ⟨hadv,hass⟩ := ZevraServer.Call.own hs h ht
    refine ⟨hadv.sane (fun _ _ => ZevraServer.Call.Commits.transition) hs,hadv.guarantee,hass,?_⟩
    rcases hadv.change with he | hc
    · exact .nothing he
    · exact .server s rfl hc
  | archive s =>
    obtain ⟨⟨s',v⟩,ht,he⟩ := Option.map_eq_some_iff.mp hq
    obtain ⟨rfl,rfl⟩ := Prod.mk.inj he
    obtain ⟨hsane,hguar,hidle,hdb⟩ := Archive.own (x := x) hs h ht
    refine ⟨hsane,hguar,hidle,?_⟩
    rcases hdb with he | ⟨c,u,he⟩
    · exact .nothing he
    · exact .archived c u he

theorem rely_idle (x : Externals) {p : ℕ} {w w' : World} (hr : (discipline x).Rely p w.pg w'.pg)
    (hi : w.pg.Idle p) : w'.pg.Idle p :=
  hr.idle hi

def outline (x : Externals) : Outline (posting x) Arrives where
  inv w := Sane w.pg
  rely p w w' := (discipline x).Rely p w.pg w'.pg
  idle p w := w.pg.Idle p
  holds p q w := q.Assert x p w.pg
  spawn hq _ hi := by
    cases hq with
    | server h => exact ZevraServer.Call.Initial.assert h hi
    | archive a => exact hi
  own _ hs h hq := by
    obtain ⟨hsane,hguar,hass,_⟩ := Call.own hs h hq
    exact ⟨hsane,hass,hguar⟩
  env {_ e _} _ hs he := by
    obtain rfl := Option.some.inj he
    rw [Event.apply_pg]
    exact ⟨hs,fun r => Discipline.Rely.refl r _⟩
  stable {_ q _ _} _ _ hr h := by
    cases q with
    | server q => exact ZevraServer.Call.Assert.stable h hr
    | archive q => exact hr.idle h
  idle_stable := @rely_idle x

end ZevraServer.Posting
