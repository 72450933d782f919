import ZevraServer.Discipline

/-!
# Open transactions

What one step of a call may do to Postgres (`Advance`), and the assertion of a call
that has locked a channel row (`Open`), with the rules that keep both.
-/

namespace ZevraServer

open ReadCommitted

/-- The invariant of the database: no two owners of conflicting locks, and the schema's
constraints on the committed tables. -/
structure Sane (pg : Postgres) : Prop where
  sound : pg.Sound
  integrity : Integrity pg.db

/-- A step of call `p` respects the locks of the others, and leaves the committed tables
as they are or changes them as `T` says. -/
structure Advance (x : Externals) (p : ℕ) (T : Db → Db → Prop) (pg pg' : Postgres) : Prop where
  sound : pg'.Sound
  guarantee : (discipline x).Guarantee p pg pg'
  change : pg'.db = pg.db ∨ T pg.db pg'.db

theorem Advance.sane {x : Externals} {p : ℕ} {T : Db → Db → Prop} {pg pg' : Postgres}
    (hT : ∀ d e, T d e → Transition d e) (h : Advance x p T pg pg') (hs : Sane pg) : Sane pg' := by
  refine ⟨h.sound,?_⟩
  rcases h.change with he | ht
  · rw [he]
    exact hs.integrity
  · exact (hT _ _ ht).integrity hs.integrity

namespace Advance

variable {x : Externals} {p : ℕ} {T : Db → Db → Prop} {pg pg' : Postgres}

theorem refl (hs : Sane pg) : Advance x p T pg pg := ⟨hs.sound,Discipline.Guarantee.refl p pg,.inl rfl⟩

theorem acquire (hs : Sane pg) {ls : List (Resource × Mode)} (h : pg.acquire p ls = some pg') :
    Advance x p T pg pg' :=
  ⟨hs.sound.acquire h,.acquire h,.inl (Pg.acquire_spec h).1⟩

theorem statement (hs : Sane pg) {ls : List (Resource × Mode)} {ws : List Write}
    (h : pg.statement p ls ws = some pg') : Advance x p T pg pg' :=
  ⟨hs.sound.statement h,.statement h,.inl (Pg.statement_spec h).1⟩

theorem rollback (hs : Sane pg) : Advance x p T pg (pg.rollback p) :=
  ⟨hs.sound.release _ _ _,.rollback p pg,.inl rfl⟩

/-- A commit is one atomic change, all of whose locks the call holds. -/
theorem commit (hs : Sane pg) (hT : T pg.db (pg.view p)) (ht : Transition pg.db (pg.view p))
    (hk : ∀ l, keeps x l pg.db (pg.view p) ∨ ∃ m, pg.Holds p l m) : Advance x p T pg (pg.commit p) :=
  ⟨hs.sound.release _ _ _,.commit hs.sound hk ht.grows,.inr hT⟩

/-- So is a statement that commits at once, if it found its locks free. -/
theorem auto (hs : Sane pg) {ls : List (Resource × Mode)} {ws : List Write}
    (h : pg.auto p ls ws = some pg') (hT : T pg.db (applyAll ws pg.db)) (ht : Transition pg.db (applyAll ws pg.db))
    (hk : ∀ l, keeps x l pg.db (applyAll ws pg.db) ∨ ∃ m, (l,m) ∈ ls) : Advance x p T pg pg' := by
  have hg := Discipline.Guarantee.auto (R := discipline x) h hk ht.grows
  obtain ⟨_,rfl⟩ := Pg.auto_eq h
  exact ⟨hs.sound,hg,.inr hT⟩

theorem commit_nothing (hs : Sane pg) (hp : pg.pending p = []) : Advance x p T pg (pg.commit p) := by
  have hv : pg.view p = pg.db := by simp [Pg.view,hp]
  refine ⟨hs.sound.release _ _ _,.commit hs.sound (fun l => ?_) ?_,.inl hv⟩
  · rw [hv]
    exact .inl (keeps_refl x l _)
  · rw [hv]
    exact Grows.refl _

end Advance

/-- Transaction `p` holds the row of channel `c` and has the given writes pending. -/
structure Open (pg : Postgres) (p : ℕ) (c : Uuid) (ws : List Write) : Prop where
  pending : pg.pending p = ws
  lock : pg.Holds p (.channel c) .update
  channel : pg.db.HasChannel c

namespace Open

variable {x : Externals} {p : ℕ} {pg pg' : Postgres} {c : Uuid} {ws : List Write}

theorem view (h : Open pg p c ws) : pg.view p = applyAll ws pg.db := by
  rw [Pg.view,h.pending]

theorem stable (h : Open pg p c ws) (hr : (discipline x).Rely p pg pg') : Open pg' p c ws :=
  ⟨hr.pending.trans h.pending,(hr.locks _ _).mpr h.lock,hr.grows.hasChannel h.channel⟩

theorem frozen (h : Open pg p c ws) (hr : (discipline x).Rely p pg pg') : Frozen c pg.db pg'.db :=
  hr.keeps _ h.lock

theorem statement (h : Open pg p c ws) {ls : List (Resource × Mode)} {ws' : List Write}
    (hs : pg.statement p ls ws' = some pg') : Open pg' p c (ws++ws') := by
  obtain ⟨hdb,hp,_,hold⟩ := Pg.statement_spec hs
  exact ⟨by rw [hp,h.pending],hold _ _ _ h.lock,hdb ▸ h.channel⟩

theorem acquire (h : Open pg p c ws) {ls : List (Resource × Mode)}
    (hs : pg.acquire p ls = some pg') : Open pg' p c ws := by
  obtain ⟨hdb,hp,_,hold⟩ := Pg.acquire_spec hs
  exact ⟨by rw [hp,h.pending],hold _ _ _ h.lock,hdb ▸ h.channel⟩

end Open

/-- The lock query opens a transaction whose writes so far leave the channels alone. -/
theorem Open.of_lockChannel {pg pg' : Postgres} {p : ℕ} {c : Uuid} {ws : List Write}
    (hp : pg.pending p = ws) (hch : pg.db.HasChannel c)
    (hview : (applyAll ws pg.db).channels = pg.db.channels) (h : lockChannel pg p c = some pg') :
    pg.acquire p [(.channel c,.update)] = some pg' ∧ Open pg' p c ws := by
  have hc : (pg.view p).channel? c ≠ none := by
    rw [Pg.view,hp,Ne,Db.channel?_eq_none,Db.HasChannel,hview]
    exact not_not.mpr hch
  unfold lockChannel at h
  split at h
  · contradiction
  · obtain ⟨hdb,hpend,hnew,_⟩ := Pg.acquire_spec h
    exact ⟨h,by rw [hpend,hp],hnew _ _ (by simp),hdb ▸ hch⟩

/-! ### Payloads of committed messages -/

/-- The payload of a message that was committed undeleted, and is still in the table or
was wiped there. -/
def Posted (db : Db) (m : MessagePayload) : Prop :=
  ∃ row username, m = toMessagePayload row username ∧ row.isDeleted = false ∧
    (row ∈ db.messages ∨ row.wipe ∈ db.messages)

theorem Posted.grows {d e : Db} {m : MessagePayload} (h : Posted d m) (hg : Grows d e) : Posted e m := by
  obtain ⟨row,u,hm,hlive,hrow | hrow⟩ := h
  · exact ⟨row,u,hm,hlive,hg.messages row hrow⟩
  · refine ⟨row,u,hm,hlive,.inr ?_⟩
    rcases hg.messages _ hrow with h | h
    · exact h
    · simpa [MessageRow.wipe] using h

/-- Message `m` of channel `c` is deleted. -/
def IsWiped (db : Db) (m c : Uuid) : Prop :=
  ∃ r ∈ db.messages, r.id = m ∧ r.channelId = c ∧ r.isDeleted = true

theorem IsWiped.grows {d e : Db} {m c : Uuid} (h : IsWiped d m c) (hg : Grows d e) : IsWiped e m c := by
  obtain ⟨r,hr,hid,hc,hd⟩ := h
  rcases hg.messages r hr with hr | hr
  · exact ⟨r,hr,hid,hc,hd⟩
  · exact ⟨r.wipe,hr,hid,hc,rfl⟩

end ZevraServer
