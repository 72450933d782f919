import ZevraServer.ReactionRows

/-!
# Reactions of deleted messages

`addReaction` asks whether the message is deleted before its transaction, and the
lock it takes then is not one `deleteMessage` takes. A deletion that sweeps the
reactions before the insertion is committed leaves the row behind. What is needed
is that no insertion runs on a message that is deleted or being swept, and that no
sweep starts while a row of the message waits for its commit.
-/

namespace ZevraServer.Reactions

open ReadCommitted Interleaving

def Deleted (m : Uuid) (d : Db) : Prop := ∃ r ∈ d.messages, r.id = m ∧ r.isDeleted = true

instance (m : Uuid) (d : Db) : Decidable (Deleted m d) := by
  unfold Deleted
  infer_instance

/-- No reaction is on a deleted message. -/
def NoneOnDeleted (d : Db) : Prop := ∀ x ∈ d.reactions, ¬ Deleted x.messageId d

instance (d : Db) : Decidable (NoneOnDeleted d) := by
  unfold NoneOnDeleted
  infer_instance

/-- The call has inserted a reaction on the message and not committed it. -/
def Call.inserted (m : Uuid) : Call → Bool
  | .add (.commit r res) => r.message = m && res.action = .added
  | _ => false

/-- The call has begun to delete the reactions of the message and not committed. -/
def Call.sweeps (m : Uuid) : Call → Bool
  | .delete (.sweeping i _ _) => .ofText i = m
  | .delete (.lock i _) => .ofText i = m
  | .delete (.previous i _) => .ofText i = m
  | .delete (.lastMessage i _ _) => .ofText i = m
  | .delete (.commit i _) => .ofText i = m
  | _ => false

/-- An insertion finds its message neither deleted nor being swept, and a sweep begins when
no reaction on its message waits for a commit. -/
def Call.InTurn (c : Config World Call) : Call → Prop
  | .add (.insert r _) => ¬ Deleted r.message c.world.pg.db ∧ ∀ s ∈ c.pool, s.sweeps r.message = false
  | .delete (.sweep i _) => ∀ s ∈ c.pool, s.inserted (.ofText i) = false
  | _ => True

def Orderly (c : Config World Call) : Label Call Choice Empty → Prop
  | .spawn q => q.Starts
  | .run p _ => ∀ q, c.pool[p]? = some q → q.InTurn c
  | .env _ => True

/-- The rows of the message are among those found. -/
def Covers (m : Uuid) (rows : List ReactionRow) (d : Db) : Prop :=
  ∀ x ∈ d.reactions, x.messageId = m → x ∈ rows

def AddReaction.Careful (p : ℕ) (pg : Postgres) : AddReaction → Prop
  | .insert _ _ => ∃ rows, pg.pending p = [.deleteReactions rows]
  | .commit r res => ∃ rows, res.action = .alreadyExists ∧ pg.pending p = [.deleteReactions rows] ∨
      (∃ id, pg.pending p = [.deleteReactions rows,.insertReaction (r.row id)]) ∧ res.action = .added ∧
        ¬ Deleted r.message pg.db
  | .rollback _ => True
  | _ => pg.pending p = []

def DeleteMessage.Careful (p : ℕ) (pg : Postgres) : DeleteMessage → Prop
  | .sweep i _ => Writes (.ofText i) [] (pg.pending p)
  | .sweeping i _ rows => Writes (.ofText i) [] (pg.pending p) ∧ Covers (.ofText i) rows pg.db
  | .lock i _ => ∃ rows, Writes (.ofText i) rows (pg.pending p) ∧ Covers (.ofText i) rows pg.db
  | .previous i _ => ∃ rows, Writes (.ofText i) rows (pg.pending p) ∧ Covers (.ofText i) rows pg.db
  | .lastMessage i _ _ => ∃ rows, Writes (.ofText i) rows (pg.pending p) ∧ Covers (.ofText i) rows pg.db
  | .commit i _ => ∃ rows, Writes (.ofText i) rows (pg.pending p) ∧ Covers (.ofText i) rows pg.db
  | .rollback _ => True
  | _ => pg.pending p = []

/-- What a call knows of its own writes and of the reactions of its message. -/
def Call.Careful (p : ℕ) (pg : Postgres) : Call → Prop
  | .add q => q.Careful p pg
  | .remove _ => pg.pending p = []
  | .delete q => q.Careful p pg

/-- Rows come only with the commit of an insertion, deleted messages only with that of a
sweep. -/
structure Effect (q : Call) (d e : Db) : Prop where
  rows : ∀ x ∈ e.reactions, x ∈ d.reactions ∨ q.inserted x.messageId = true
  deleted : ∀ m, Deleted m e → Deleted m d ∨ q.sweeps m = true

theorem Effect.refl (q : Call) (d : Db) : Effect q d d := ⟨fun _ h => .inl h,fun _ h => .inl h⟩

variable {hash : String → ℤ} {p : ℕ} {pg pg' : Postgres} {ch : Choice} {w w' : World}
  {rows : List ReactionRow} {q : Call}

theorem Effect.covers {m : Uuid} {d e : Db} (h : Effect q d e) (hq : q.inserted m = false)
    (hc : Covers m rows d) : Covers m rows e := by
  intro x hx hm
  rcases h.rows x hx with hx | hx
  · exact hc x hx hm
  · rw [hm,hq] at hx
    simp at hx

/-- Another call's step does not disturb what a call knows. -/
theorem Call.Careful.beside {s : Call} {r : ℕ} (h : s.Careful r pg) (hp : pg'.pending r = pg.pending r)
    (he : Effect q pg.db pg'.db) (hin : ∀ m, s.sweeps m = true → q.inserted m = false)
    (hsw : ∀ m, s.inserted m = true → q.sweeps m = false) : s.Careful r pg' := by
  cases s with
  | add s =>
    cases s with
    | insert r' replaced => exact h.imp fun rows h => hp.trans h
    | commit r' res =>
      obtain ⟨rows,⟨ha,h⟩ | ⟨⟨id,h⟩,ha,hnot⟩⟩ := h
      · exact ⟨rows,.inl ⟨ha,hp.trans h⟩⟩
      · refine ⟨rows,.inr ⟨⟨id,hp.trans h⟩,ha,fun hd => ?_⟩⟩
        rcases he.deleted _ hd with hd | hd
        · exact hnot hd
        · rw [hsw r'.message (by simp [inserted,ha])] at hd
          simp at hd
    | rollback err => trivial
    | _ => exact hp.trans h
  | remove s => exact hp.trans h
  | delete s =>
    have hcover : ∀ {m : Uuid}, q.inserted m = false → (∃ rows, DeleteMessage.Writes m rows (pg.pending r) ∧
        Covers m rows pg.db) → ∃ rows, DeleteMessage.Writes m rows (pg'.pending r) ∧ Covers m rows pg'.db :=
      fun hq ⟨rows,hw,hc⟩ => ⟨rows,by rwa [hp],he.covers hq hc⟩
    cases s with
    | sweep i c => exact (congrArg (DeleteMessage.Writes _ []) hp).mpr h
    | sweeping i c rows =>
      exact ⟨(congrArg (DeleteMessage.Writes _ []) hp).mpr h.1,he.covers (hin _ (by simp [sweeps])) h.2⟩
    | lock i c => exact hcover (hin _ (by simp [sweeps])) h
    | previous i c => exact hcover (hin _ (by simp [sweeps])) h
    | lastMessage i c prev => exact hcover (hin _ (by simp [sweeps])) h
    | commit i c => exact hcover (hin _ (by simp [sweeps])) h
    | rollback err => trivial
    | _ => exact hp.trans h

/-- What a step does to its own call, to the tables and to the transactions of the others. -/
structure Advance (p : ℕ) (q q' : Call) (pg pg' : Postgres) : Prop where
  careful : q'.Careful p pg'
  effect : Effect q pg.db pg'.db
  clean : NoneOnDeleted pg'.db
  others : ∀ r, r ≠ p → pg'.pending r = pg.pending r

namespace Advance

variable {q' : Call}

theorem same (hd : NoneOnDeleted pg.db) (h : q'.Careful p pg) : Advance p q q' pg pg :=
  ⟨h,.refl q _,hd,fun _ _ => rfl⟩

theorem acquire {ls : List (Lockable × Mode)} (hd : NoneOnDeleted pg.db) (ha : pg.acquire p ls = some pg')
    (h : q'.Careful p pg') : Advance p q q' pg pg' := by
  obtain ⟨hdb,hpend,_⟩ := Pg.acquire_spec ha
  exact ⟨h,by rw [hdb]; exact .refl q _,by rwa [hdb],fun r _ => by rw [hpend]⟩

theorem statement {ls : List (Lockable × Mode)} {ws : List Change} (hd : NoneOnDeleted pg.db)
    (hs : pg.statement p ls ws = some pg') (h : q'.Careful p pg') : Advance p q q' pg pg' := by
  have hdb := (Pg.statement_spec hs).1
  have hrely : (Discipline.free Db Lockable).Guarantee p pg pg' := .statement hs
  exact ⟨h,by rw [hdb]; exact .refl q _,by rwa [hdb],fun r hr => (hrely r hr).pending⟩

theorem rollback (hd : NoneOnDeleted pg.db) (h : q'.Careful p (pg.rollback p)) :
    Advance p q q' pg (pg.rollback p) :=
  ⟨h,.refl q _,hd,fun r hr => by simp [Pg.rollback,hr]⟩

theorem commit (he : Effect q pg.db (pg.view p)) (hd : NoneOnDeleted (pg.view p))
    (h : q'.Careful p (pg.commit p)) : Advance p q q' pg (pg.commit p) :=
  ⟨h,he,hd,fun r hr => by simp [Pg.commit,hr]⟩

end Advance

/-- Fewer rows and the same messages. -/
theorem NoneOnDeleted.of_subset {d e : Db} (h : NoneOnDeleted d) (hr : ∀ x ∈ e.reactions, x ∈ d.reactions)
    (hm : e.messages = d.messages) : NoneOnDeleted e := by
  intro x hx hdel
  refine h x (hr x hx) ?_
  rwa [Deleted,hm] at hdel

theorem Effect.of_subset {d e : Db} (hr : ∀ x ∈ e.reactions, x ∈ d.reactions)
    (hm : e.messages = d.messages) : Effect q d e :=
  ⟨fun x hx => .inl (hr x hx),fun m h => .inl (by rwa [Deleted,hm] at h)⟩

theorem deleted_wipe {m i : Uuid} {d e : Db} (h : e.messages = d.messages.map (·.wipeIf m)) (hd : Deleted i e) :
    Deleted i d ∨ m = i := by
  obtain ⟨s,hs,rfl,hdel⟩ := hd
  rw [h] at hs
  obtain ⟨r,hr,rfl⟩ := List.mem_map.mp hs
  by_cases hm : r.id = m
  · right
    rw [MessageRow.wipeIf,if_pos hm]
    exact hm.symm
  · rw [MessageRow.wipeIf,if_neg hm] at hdel ⊢
    exact .inl ⟨r,hr,rfl,hdel⟩

/-- The commit of an insertion on a message that is not deleted. -/
theorem AddReaction.commits {r : Request} {res : AddReactionResult} {d : Db} (hd : NoneOnDeleted pg.db)
    (h : (AddReaction.commit r res).Careful p pg) (hview : pg.view p = d) :
    Effect (.add (.commit r res)) pg.db d ∧ NoneOnDeleted d := by
  subst hview
  obtain ⟨rows,⟨_,hp⟩ | ⟨⟨id,hp⟩,ha,hnot⟩⟩ := h
  · have hr : ∀ x ∈ (pg.view p).reactions, x ∈ pg.db.reactions := by
      rw [view_delete hp]
      exact fun x hx => List.mem_of_mem_filter hx
    have hm : (pg.view p).messages = pg.db.messages := by simp [Pg.view,hp,Writable.apply,apply]
    exact ⟨.of_subset hr hm,hd.of_subset hr hm⟩
  · have hm : (pg.view p).messages = pg.db.messages := by simp [Pg.view,hp,Writable.apply,apply]
    have hr : ∀ x ∈ (pg.view p).reactions, x ∈ pg.db.reactions ∨ x = r.row id := by
      rw [view_insert hp]
      intro x hx
      rcases List.mem_append.mp hx with hx | hx
      · exact .inl (List.mem_of_mem_filter hx)
      · exact .inr (List.mem_singleton.mp hx)
    refine ⟨⟨fun x hx => ?_,fun m h => .inl (by rwa [Deleted,hm] at h)⟩,fun x hx hdel => ?_⟩
    · rcases hr x hx with hx | rfl
      · exact .inl hx
      · exact .inr (by simp [Call.inserted,Request.row,ha])
    · rw [Deleted,hm] at hdel
      rcases hr x hx with hx | rfl
      · exact hd x hx hdel
      · exact hnot hdel

/-- The commit of a deletion that has swept every reaction of its message. -/
theorem DeleteMessage.commits {i : RawId} {c : Uuid} (hd : NoneOnDeleted pg.db)
    (h : (DeleteMessage.commit i c).Careful p pg) :
    Effect (.delete (.commit i c)) pg.db (pg.view p) ∧ NoneOnDeleted (pg.view p) := by
  obtain ⟨rows,hw,hc⟩ := h
  have hr : ∀ x ∈ (pg.view p).reactions, x ∈ pg.db.reactions ∧ x ∉ rows := by
    rw [Pg.view,hw.reactions]
    exact fun x hx => by simpa using hx
  have hm : (pg.view p).messages = pg.db.messages.map (·.wipeIf (.ofText i)) := hw.messages _
  refine ⟨⟨fun x hx => .inl (hr x hx).1,fun m h => ?_⟩,fun x hx hdel => ?_⟩
  · rcases deleted_wipe hm h with h | rfl
    · exact .inl h
    · exact .inr (by simp [Call.sweeps])
  · obtain ⟨hin,hout⟩ := hr x hx
    rcases deleted_wipe hm hdel with h | h
    · exact hd x hin h
    · exact hout (hc x hin h.symm)

theorem AddReaction.advance {c : Config World Call} {q q' : AddReaction} (hd : NoneOnDeleted w.pg.db)
    (h : q.Careful p w.pg) (hturn : (Call.add q).InTurn c) (hw : c.world = w)
    (hq : q.step hash p ch w = some (q',w')) : Advance p (.add q) (.add q') w.pg w'.pg := by
  cases AddReaction.edge hq with
  | refused err => exact .same hd h
  | checked hl hlive => exact .same hd h
  | abort hin err => exact .same hd trivial
  | locked hpg => exact .acquire hd hpg ((congrFun (Pg.acquire_spec hpg).2.1 p).trans h)
  | found => exact .same hd h
  | @removed r rows pg hpg =>
    have hp : w.pg.pending p = [] := h
    have hcareful : (AddReaction.insert r ((returning (w.pg.view p) rows).map (·.emoji))).Careful p pg := by
      refine ⟨rows,?_⟩
      rw [(Pg.statement_spec hpg).2.1,hp]
      rfl
    exact .statement hd hpg hcareful
  | @inserted r replaced pg inserted hi =>
    obtain ⟨rows,hp⟩ := h
    obtain ⟨rfl,rfl⟩ | ⟨rfl,_,hst⟩ := insertReaction_eq hi
    · exact .same hd ⟨rows,.inl ⟨rfl,hp⟩⟩
    · obtain ⟨hdb,hpend,_,_⟩ := Pg.statement_spec hst
      have hcareful : (AddReaction.commit r ⟨.added,replaced⟩).Careful p pg := by
        refine ⟨rows,.inr ⟨⟨_,by rw [hpend,hp]; rfl⟩,rfl,?_⟩⟩
        rw [hdb,← hw]
        exact hturn.1
      exact .statement hd hst hcareful
  | committed =>
    obtain ⟨heff,hclean⟩ := AddReaction.commits hd h rfl
    exact .commit heff hclean (Pg.Idle.commit w.pg p).pending
  | rolledBack => exact .rollback hd (Pg.Idle.rollback w.pg p).pending
  | told => exact .same hd h

theorem RemoveReaction.advance {q q' : RemoveReaction} (hd : NoneOnDeleted w.pg.db) (h : w.pg.pending p = [])
    (hq : q.step p ch w = some (q',w')) : Advance p (.remove q) (.remove q') w.pg w'.pg := by
  cases RemoveReaction.edge hq with
  | @removed r rows pg hpg =>
    obtain ⟨_,rfl⟩ := Pg.auto_eq hpg
    have hr : ∀ x ∈ (applyAll [Change.deleteReactions rows] w.pg.db).reactions, x ∈ w.pg.db.reactions :=
      fun x hx => List.mem_of_mem_filter hx
    exact ⟨h,.of_subset hr rfl,hd.of_subset hr rfl,fun r _ => rfl⟩
  | _ => exact .same hd h

theorem DeleteMessage.advance {q q' : DeleteMessage} (hd : NoneOnDeleted w.pg.db) (h : q.Careful p w.pg)
    (hq : q.step p ch w = some (q',w')) : Advance p (.delete q) (.delete q') w.pg w'.pg := by
  have hlock : ∀ {q q' : DeleteMessage} {c : Uuid} {pg : Postgres}, lockChannel w.pg p c = some pg →
      (∀ pg : Postgres, pg.db = w.pg.db → pg.pending = w.pg.pending → q'.Careful p pg) →
      Advance p (.delete q) (.delete q') w.pg pg := by
    intro q q' c pg hpg hcareful
    rcases lockChannel_eq hpg with rfl | hacq
    · exact .same hd (hcareful _ rfl rfl)
    · obtain ⟨hdb,hpend,_⟩ := Pg.acquire_spec hacq
      exact .acquire hd hacq (hcareful _ hdb hpend)
  cases DeleteMessage.edge hq with
  | refused err => exact .same hd h
  | again hm hdel => exact .same hd h
  | selected hm => exact .same hd h
  | abort hin err => exact .same hd trivial
  | @wiped i c pg hpg =>
    have hp : w.pg.pending p = [] := h
    have hcareful : (DeleteMessage.sweep i c).Careful p pg := by
      show Writes _ [] (pg.pending p)
      rw [(Pg.statement_spec hpg).2.1,hp]
      exact .wipe _
    exact .statement hd hpg hcareful
  | @found i c =>
    have hw : Writes (.ofText i) [] (w.pg.pending p) := h
    have hview : (w.pg.view p).reactions = w.pg.db.reactions := by simp [Pg.view,hw.reactions]
    have hcareful : (DeleteMessage.sweeping i c
        ((w.pg.view p).reactions.filter fun r => r.messageId = .ofText i)).Careful p w.pg := by
      refine ⟨h,fun x hx hm => ?_⟩
      rw [hview]
      exact List.mem_filter.mpr ⟨hx,by simpa using hm⟩
    exact .same hd hcareful
  | @swept i c rows pg hpg =>
    obtain ⟨hdb,hpend,_,_⟩ := Pg.statement_spec hpg
    have hcareful : (DeleteMessage.lock i c).Careful p pg := by
      refine ⟨rows,?_,by rw [hdb]; exact h.2⟩
      rw [hpend]
      exact h.1.delete
    exact .statement hd hpg hcareful
  | last hpg =>
    obtain ⟨rows,hw,hc⟩ := h
    exact hlock hpg fun pg hdb hpend => ⟨rows,by rwa [hpend],by rwa [hdb]⟩
  | other hpg =>
    obtain ⟨rows,hw,hc⟩ := h
    exact hlock hpg fun pg hdb hpend => ⟨rows,by rwa [hpend],by rwa [hdb]⟩
  | before prev => exact .same hd h
  | @pointed i c prev pg hpg =>
    obtain ⟨hdb,hpend,_,_⟩ := Pg.statement_spec hpg
    obtain ⟨rows,hw,hc⟩ := h
    have hcareful : (DeleteMessage.commit i c).Careful p pg := by
      refine ⟨rows,?_,by rwa [hdb]⟩
      rw [hpend]
      exact hw.point
    exact .statement hd hpg hcareful
  | committed =>
    obtain ⟨heff,hclean⟩ := DeleteMessage.commits hd h
    exact .commit heff hclean (Pg.Idle.commit w.pg p).pending
  | rolledBack => exact .rollback hd (Pg.Idle.rollback w.pg p).pending
  | told => exact .same hd h

/-! ### Runs in which every step is in turn -/

variable {c d : Config World Call}

theorem Call.advance {q' : Call} (hd : NoneOnDeleted c.world.pg.db) (h : q.Careful p c.world.pg)
    (hturn : q.InTurn c) (hq : q.step hash p ch c.world = some (q',w')) :
    Advance p q q' c.world.pg w'.pg := by
  cases q with
  | add q =>
    obtain ⟨⟨r,v⟩,hr,he⟩ := Option.map_eq_some_iff.mp hq
    obtain ⟨rfl,rfl⟩ := Prod.mk.inj he
    exact AddReaction.advance hd h hturn rfl hr
  | remove q =>
    obtain ⟨⟨r,v⟩,hr,he⟩ := Option.map_eq_some_iff.mp hq
    obtain ⟨rfl,rfl⟩ := Prod.mk.inj he
    exact RemoveReaction.advance hd h hr
  | delete q =>
    obtain ⟨⟨r,v⟩,hr,he⟩ := Option.map_eq_some_iff.mp hq
    obtain ⟨rfl,rfl⟩ := Prod.mk.inj he
    exact DeleteMessage.advance hd h hr

/-- Only the insertion leads to the commit. -/
theorem AddReaction.step_inserts {q : AddReaction} {r : Request} {res : AddReactionResult}
    (h : q.step hash p ch w = some (.commit r res,w')) : ∃ replaced, q = .insert r replaced := by
  cases AddReaction.edge h with
  | inserted hi => exact ⟨_,rfl⟩

/-- A call that sweeps after a step did so before it or has just begun. -/
theorem DeleteMessage.step_sweeps {q q' : DeleteMessage} {m : Uuid} (hq : q.step p ch w = some (q',w'))
    (h : (Call.delete q').sweeps m = true) :
    (Call.delete q).sweeps m = true ∨ ∃ i c, q = .sweep i c ∧ Uuid.ofText i = m := by
  cases DeleteMessage.edge hq with
  | @found i c => exact .inr ⟨i,c,rfl,of_decide_eq_true h⟩
  | swept hpg => exact .inl h
  | last hpg => exact .inl h
  | other hpg => exact .inl h
  | before prev => exact .inl h
  | pointed hpg => exact .inl h
  | _ => simp [Call.sweeps] at h

/-- An uncommitted insertion comes from one in turn. -/
theorem Call.step_inserted {q' : Call} {m : Uuid} (hturn : q.InTurn c)
    (hq : q.step hash p ch c.world = some (q',w')) (h : q'.inserted m = true) :
    ∀ s ∈ c.pool, s.sweeps m = false := by
  cases q with
  | add q =>
    obtain ⟨⟨r,v⟩,hr,he⟩ := Option.map_eq_some_iff.mp hq
    obtain ⟨rfl,rfl⟩ := Prod.mk.inj he
    cases r with
    | commit r res =>
      obtain ⟨replaced,rfl⟩ := AddReaction.step_inserts hr
      obtain ⟨rfl,_⟩ : r.message = m ∧ res.action = .added := by simpa [inserted] using h
      exact hturn.2
    | _ => simp [inserted] at h
  | remove q =>
    obtain ⟨⟨r,v⟩,_,he⟩ := Option.map_eq_some_iff.mp hq
    obtain ⟨rfl,_⟩ := Prod.mk.inj he
    simp [inserted] at h
  | delete q =>
    obtain ⟨⟨r,v⟩,_,he⟩ := Option.map_eq_some_iff.mp hq
    obtain ⟨rfl,_⟩ := Prod.mk.inj he
    simp [inserted] at h

theorem Call.step_sweeps {q' : Call} {m : Uuid} (hturn : q.InTurn c)
    (hq : q.step hash p ch c.world = some (q',w')) (h : q'.sweeps m = true) :
    q.sweeps m = true ∨ ∀ s ∈ c.pool, s.inserted m = false := by
  cases q with
  | add q =>
    obtain ⟨⟨r,v⟩,_,he⟩ := Option.map_eq_some_iff.mp hq
    obtain ⟨rfl,_⟩ := Prod.mk.inj he
    simp [sweeps] at h
  | remove q =>
    obtain ⟨⟨r,v⟩,_,he⟩ := Option.map_eq_some_iff.mp hq
    obtain ⟨rfl,_⟩ := Prod.mk.inj he
    simp [sweeps] at h
  | delete q =>
    obtain ⟨⟨r,v⟩,hr,he⟩ := Option.map_eq_some_iff.mp hq
    obtain ⟨rfl,rfl⟩ := Prod.mk.inj he
    rcases DeleteMessage.step_sweeps hr h with h | ⟨i,c,rfl,rfl⟩
    · exact .inl h
    · exact .inr hturn

/-- What holds in every configuration of such a run. -/
structure Clean (c : Config World Call) : Prop where
  table : NoneOnDeleted c.world.pg.db
  careful : ∀ p (q : Call), c.pool[p]? = some q → q.Careful p c.world.pg
  apart : ∀ m, ∀ q ∈ c.pool, ∀ s ∈ c.pool, q.inserted m = true → s.sweeps m = false
  idle : ∀ p, c.pool.length ≤ p → c.world.pg.pending p = []

theorem Call.Starts.quiet (h : q.Starts) (m : Uuid) : q.inserted m = false ∧ q.sweeps m = false := by
  cases h <;> exact ⟨rfl,rfl⟩

theorem Call.Starts.careful (h : q.Starts) (hp : pg.pending p = []) : q.Careful p pg := by
  cases h <;> exact hp

theorem Call.inserted_sweeps (q : Call) (m : Uuid) (h : q.inserted m = true) : q.sweeps m = false := by
  cases q with
  | add q => rfl
  | remove q => rfl
  | delete q => simp [inserted] at h

theorem Clean.spawn (h : Clean c) (hq : q.Starts) : Clean ⟨c.world,c.pool++[q]⟩ where
  table := h.table
  careful p s hs := by
    rcases pool_append hs with ⟨_,hs⟩ | ⟨hp,rfl⟩
    · exact h.careful p s hs
    · exact hq.careful (h.idle p hp)
  apart m s hs t ht hin := by
    simp only [List.mem_append,List.mem_singleton] at hs ht
    rcases hs with hs | rfl
    · rcases ht with ht | rfl
      · exact h.apart m s hs t ht hin
      · exact (hq.quiet m).2
    · rw [(hq.quiet m).1] at hin
      simp at hin
  idle p hp := h.idle p (by simp only [List.length_append] at hp; omega)

theorem Clean.run {q' : Call} (h : Clean c) (hq : c.pool[p]? = some q) (hturn : q.InTurn c)
    (hs : q.step hash p ch c.world = some (q',w')) : Clean ⟨w',c.pool.set p q'⟩ := by
  have hadv := Call.advance h.table (h.careful p q hq) hturn hs
  have hqin : q ∈ c.pool := List.mem_of_getElem? hq
  have hlt : p < c.pool.length := (List.getElem?_eq_some_iff.mp hq).1
  have hold : ∀ s ∈ c.pool.set p q', s = q' ∨ s ∈ c.pool := fun s hs =>
    (List.mem_or_eq_of_mem_set hs).symm
  refine ⟨hadv.clean,fun r s hr => ?_,fun m s hs' t ht hin => ?_,fun r hr => ?_⟩
  · rcases pool_set hr with ⟨rfl,rfl⟩ | ⟨hne,hr⟩
    · exact hadv.careful
    · have hsin : s ∈ c.pool := List.mem_of_getElem? hr
      refine (h.careful r s hr).beside (hadv.others r hne) hadv.effect (fun m hsw => ?_) fun m hin => ?_
      · by_contra hin
        rw [h.apart m q hqin s hsin (by simpa using hin)] at hsw
        simp at hsw
      · exact h.apart m s hsin q hqin hin
  · rcases hold s hs' with rfl | hsin
    · rcases hold t ht with rfl | htin
      · exact Call.inserted_sweeps _ m hin
      · exact Call.step_inserted hturn hs hin t htin
    · rcases hold t ht with rfl | htin
      · by_contra hsw
        rcases Call.step_sweeps hturn hs (by simpa using hsw) with hq' | hnone
        · rw [h.apart m s hsin q hqin hin] at hq'
          simp at hq'
        · rw [hnone s hsin] at hin
          simp at hin
      · exact h.apart m s hsin t htin hin
  · simp only [List.length_set] at hr
    exact (hadv.others r (by omega)).trans (h.idle r hr)

/-- From tables without reactions of deleted messages, a run in which every insertion and
every sweep is in turn leads to such tables only. -/
theorem no_reaction_on_deleted (hash : String → ℤ) (w₀ : World) (hidle : ∀ p, w₀.pg.Idle p)
    (h₀ : NoneOnDeleted w₀.pg.db) {c : Config World Call} (hrun : Run (system hash) Orderly ⟨w₀,[]⟩ c) :
    NoneOnDeleted c.world.pg.db := by
  have hstart : Clean ⟨w₀,[]⟩ := ⟨h₀,by simp,by simp,fun p _ => (hidle p).pending⟩
  refine (hrun.invariant hstart ?_).table
  intro a l b _ ha hl hn
  cases l with
  | spawn q =>
    simp only [System.next,Option.some.injEq] at hn
    subst hn
    exact ha.spawn hl
  | run p ch =>
    obtain ⟨q,q',w,hq,hs,rfl⟩ := (system hash).next_run hn
    exact ha.run hq (hl q hq) hs
  | env e => exact e.elim

instance (c : Config World Call) (q : Call) : Decidable (q.InTurn c) := by
  cases q with
  | add q => cases q <;> unfold Call.InTurn <;> infer_instance
  | remove q => exact inferInstanceAs (Decidable True)
  | delete q => cases q <;> unfold Call.InTurn <;> infer_instance

/-- Calls arrive at their first statement, and nothing else is asked of the run. -/
def Arriving (_ : Config World Call) : Label Call Choice Empty → Prop
  | .spawn q => q.Starts
  | .run _ _ => True
  | .env _ => True

def starting : Call → Bool
  | .add (.load _) => true
  | .remove (.load _) => true
  | .delete (.select _ _) => true
  | _ => false

theorem starting_sound (q : Call) (h : starting q = true) : q.Starts := by
  unfold starting at h
  split at h
  · exact .add _
  · exact .remove _
  · exact .delete _ _
  · simp at h

def arriving (_ : Config World Call) : Label Call Choice Empty → Bool
  | .spawn q => starting q
  | .run _ _ => true
  | .env _ => true

theorem arriving_sound (c : Config World Call) (l : Label Call Choice Empty) (h : arriving c l = true) :
    Arriving c l := by
  cases l with
  | spawn q => exact starting_sound q h
  | run p ch => trivial
  | env e => trivial

def orderly (c : Config World Call) : Label Call Choice Empty → Bool
  | .spawn q => starting q
  | .run p _ => c.pool[p]?.all fun q => q.InTurn c
  | .env _ => true

theorem orderly_sound (c : Config World Call) (l : Label Call Choice Empty) (h : orderly c l = true) :
    Orderly c l := by
  cases l with
  | spawn q => exact starting_sound q h
  | run p ch =>
    intro q hq
    simpa [orderly,hq] using h
  | env e => trivial

/-- A reaction is added and committed, then its message is deleted. -/
def tidy : List (Label Call Choice Empty) :=
  .spawn (.add (.load (react ada "+1")))::List.replicate 7 (.run 0 (draws 21))++
    .spawn (.delete (.select 2 (Uuid.text 5)))::List.replicate 9 (.run 1 (draws 0))

theorem no_reaction_on_deleted_tidy : ∃ c, Run (system byLength) Orderly ⟨start,[]⟩ c ∧
    c.pool = [.add (.done ⟨.added,[]⟩),.delete (.done (Uuid.text 5) 3)] ∧ Deleted 5 c.world.pg.db ∧
      NoneOnDeleted c.world.pg.db := by
  obtain ⟨c,hc,hf⟩ := Run.exists_of_exec (S := system byLength) (c := ⟨start,[]⟩) orderly_sound tidy
    (f := fun c => (c.pool,decide (Deleted 5 c.world.pg.db)))
    (v := ([.add (.done ⟨.added,[]⟩),.delete (.done (Uuid.text 5) 3)],true)) (by decide +kernel)
  obtain ⟨hpool,hdel⟩ := Prod.mk.inj hf
  exact ⟨c,hc,hpool,of_decide_eq_true hdel,
    no_reaction_on_deleted byLength start start_idle (by decide) hc⟩

/-- The reaction has loaded its message when the deletion runs from its first statement to
its last. -/
def crossed : List (Label Call Choice Empty) :=
  [.spawn (.add (.load (react ada "+1"))),.spawn (.delete (.select 2 (Uuid.text 5))),.run 0 (draws 21)]++
    List.replicate 9 (.run 1 (draws 0))++List.replicate 6 (.run 0 (draws 21))

/-- The row stays, and both calls have succeeded. -/
theorem reaction_outlives_message : NoneOnDeleted start.pg.db ∧
    ∃ c, Run (system byLength) Arriving ⟨start,[]⟩ c ∧
      c.pool = [.add (.done ⟨.added,[]⟩),.delete (.done (Uuid.text 5) 3)] ∧
        ¬ NoneOnDeleted c.world.pg.db := by
  obtain ⟨c,hc,hf⟩ := Run.exists_of_exec (S := system byLength) (c := ⟨start,[]⟩) arriving_sound crossed
    (f := fun c => (c.pool,decide (NoneOnDeleted c.world.pg.db)))
    (v := ([.add (.done ⟨.added,[]⟩),.delete (.done (Uuid.text 5) 3)],false)) (by decide +kernel)
  obtain ⟨hpool,hdel⟩ := Prod.mk.inj hf
  exact ⟨by decide,c,hc,hpool,of_decide_eq_false hdel⟩

end ZevraServer.Reactions
