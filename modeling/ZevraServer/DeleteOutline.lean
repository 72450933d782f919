import ZevraServer.Transactions

/-!
# The transaction of `deleteMessage`

The message is wiped before the channel row is locked, but nothing of the deletion
is visible before the commit. From the lock on the messages of the channel stay as
they are, so the message found by the search is still the newest undeleted one when
the pointer is committed.
-/

namespace ZevraServer

open ReadCommitted

theorem Frozen.lastMessageId {d e : Db} {c : Uuid} (h : Frozen c d e) :
    e.lastMessageId c = d.lastMessageId c := by
  simp only [Db.lastMessageId,h.channel]

namespace DeleteMessage

theorem isPrevious_of_frozen {d e : Db} {m c : Uuid} {prev : Option MessageRow} (h : Frozen c d e) :
    IsPrevious e m c prev ↔ IsPrevious d m c prev := by
  cases prev <;> simp only [IsPrevious,predecessors,h.messages]

/-- The writes of the transaction before the preview. -/
def writes (m : Uuid) (ids : List Uuid) : List Write := [.wipeMessage m,.deleteReactions ids]

/-- The write that moves the preview. -/
def pointTo (c : Uuid) (prev : Option MessageRow) : Write :=
  .setLastMessage c (prev.map (·.id)) (prev.map (·.createdAt))

/-- The assertion of `deleteMessage` at each of its control states. -/
def Assert (p : ℕ) (pg : Postgres) : DeleteMessage → Prop
  | .select _ _ => pg.Idle p
  | .begin m c => pg.Idle p ∧ pg.db.HasMessage m c
  | .wipe m c => pg.Idle p ∧ pg.db.HasMessage m c
  | .reactions m c => pg.pending p = [.wipeMessage m] ∧ pg.db.HasMessage m c
  | .lock m c => ∃ ids, pg.pending p = writes m ids ∧ pg.db.HasMessage m c
  | .previous m c => ∃ ids, Open pg p c (writes m ids) ∧ pg.db.HasMessage m c ∧
      pg.db.lastMessageId c = some m
  | .lastMessage m c prev => ∃ ids, Open pg p c (writes m ids) ∧ pg.db.HasMessage m c ∧
      pg.db.lastMessageId c = some m ∧ IsPrevious pg.db m c prev
  | .commit m c => pg.db.HasMessage m c ∧ ∃ ids,
      (Open pg p c (writes m ids) ∧ pg.db.lastMessageId c ≠ some m ∨
        ∃ prev, Open pg p c (writes m ids++[pointTo c prev]) ∧ pg.db.lastMessageId c = some m ∧
          IsPrevious pg.db m c prev)
  | .rollback _ => True
  | .invalidate m c => pg.Idle p ∧ IsWiped pg.db m c
  | .emit m c => pg.Idle p ∧ IsWiped pg.db m c
  | .done m c => pg.Idle p ∧ IsWiped pg.db m c
  | .failed _ => pg.Idle p

/-- The change of the tables a control state commits. -/
def Commits : DeleteMessage → Db → Db → Prop
  | .commit m c, d, e => Deleted m c d e
  | _, _, _ => False

variable {x : Externals} {p : ℕ} {T : Db → Db → Prop} {pg pg' : Postgres}

/-- Other calls do not disturb the assertion. -/
theorem Assert.stable {q : DeleteMessage} (h : q.Assert p pg) (hr : (discipline x).Rely p pg pg') :
    q.Assert p pg' := by
  cases q with
  | select u m => exact hr.idle h
  | begin m c => exact ⟨hr.idle h.1,hr.grows.hasMessage h.2⟩
  | wipe m c => exact ⟨hr.idle h.1,hr.grows.hasMessage h.2⟩
  | reactions m c => exact ⟨hr.pending.trans h.1,hr.grows.hasMessage h.2⟩
  | lock m c =>
    obtain ⟨ids,hp,hm⟩ := h
    exact ⟨ids,hr.pending.trans hp,hr.grows.hasMessage hm⟩
  | previous m c =>
    obtain ⟨ids,ho,hm,hlast⟩ := h
    exact ⟨ids,ho.stable hr,hr.grows.hasMessage hm,(ho.frozen hr).lastMessageId.trans hlast⟩
  | lastMessage m c prev =>
    obtain ⟨ids,ho,hm,hlast,hprev⟩ := h
    exact ⟨ids,ho.stable hr,hr.grows.hasMessage hm,(ho.frozen hr).lastMessageId.trans hlast,
      (isPrevious_of_frozen (ho.frozen hr)).mpr hprev⟩
  | commit m c =>
    obtain ⟨hm,ids,⟨ho,hlast⟩ | ⟨prev,ho,hlast,hprev⟩⟩ := h
    · exact ⟨hr.grows.hasMessage hm,ids,.inl ⟨ho.stable hr,by
        rwa [(ho.frozen hr).lastMessageId]⟩⟩
    · exact ⟨hr.grows.hasMessage hm,ids,.inr ⟨prev,ho.stable hr,(ho.frozen hr).lastMessageId.trans hlast,
        (isPrevious_of_frozen (ho.frozen hr)).mpr hprev⟩⟩
  | rollback err => trivial
  | invalidate m c => exact ⟨hr.idle h.1,h.2.grows hr.grows⟩
  | emit m c => exact ⟨hr.idle h.1,h.2.grows hr.grows⟩
  | done m c => exact ⟨hr.idle h.1,h.2.grows hr.grows⟩
  | failed err => exact hr.idle h

theorem applyAll_writes (m : Uuid) (ids : List Uuid) (db : Db) :
    (applyAll (writes m ids) db).messages = db.messages.map (·.wipeIf m) ∧
      (applyAll (writes m ids) db).channels = db.channels ∧
      (applyAll (writes m ids) db).members = db.members := ⟨rfl,rfl,rfl⟩

/-- Without the preview in need of a change the transaction is the atomic `Deleted`. -/
theorem deleted_of_kept {m c : Uuid} {ids : List Uuid} (ho : Open pg p c (writes m ids))
    (hm : pg.db.HasMessage m c) (hlast : pg.db.lastMessageId c ≠ some m) :
    Deleted m c pg.db (pg.view p) := by
  rw [ho.view]
  exact ⟨hm,rfl,.inl ⟨hlast,rfl⟩,rfl⟩

theorem deleted_of_moved {m c : Uuid} {ids : List Uuid} {prev : Option MessageRow}
    (ho : Open pg p c (writes m ids++[pointTo c prev])) (hm : pg.db.HasMessage m c)
    (hlast : pg.db.lastMessageId c = some m) (hprev : IsPrevious pg.db m c prev) :
    Deleted m c pg.db (pg.view p) := by
  rw [ho.view]
  exact ⟨hm,rfl,.inr ⟨hlast,prev,hprev,rfl⟩,rfl⟩

theorem isWiped_of_deleted {m c : Uuid} {db db' : Db} (h : Deleted m c db db') : IsWiped db' m c := by
  obtain ⟨r,hr,rfl,rfl⟩ := h.message
  refine ⟨r.wipe,?_,rfl,rfl,rfl⟩
  rw [h.messages]
  exact List.mem_map.mpr ⟨r,hr,by simp [MessageRow.wipeIf]⟩

/-- The search ignores the message being deleted, so its own wipe does not matter. -/
theorem predecessors_wipe (db : Db) (m c : Uuid) (ids : List Uuid) :
    predecessors (applyAll (writes m ids) db) m c = predecessors db m c := by
  have hrows : ((applyAll (writes m ids) db).messagesOf c).filter
        (fun r => decide (r.isDeleted = false ∧ r.id ≠ m)) =
      (db.messagesOf c).filter fun r => decide (r.isDeleted = false ∧ r.id ≠ m) := by
    simp only [Db.messagesOf,(applyAll_writes m ids db).1]
    induction db.messages with
    | nil => rfl
    | cons r l ih =>
      by_cases hr : r.id = m
      · by_cases hc : r.channelId = c <;>
          simpa [MessageRow.wipeIf,MessageRow.wipe,hr,hc] using ih
      · by_cases hc : r.channelId = c <;> by_cases hd : r.isDeleted <;>
          simpa [MessageRow.wipeIf,hr,hc,hd] using ih
  rw [predecessors,hrows]
  rfl

theorem own_statement {w : World} {next : DeleteMessage} {r : Option Postgres} {q : DeleteMessage}
    {w' : World} (h : statement w next r = some (q,w')) :
    ∃ pg, r = some pg ∧ q = next ∧ w' = { w with pg := pg } := by
  unfold statement at h
  split at h
  · simp at h
  · rename_i pg
    simp only [Option.some.injEq,Prod.mk.injEq] at h
    exact ⟨pg,rfl,h.1.symm,h.2.symm⟩

variable {ch : Choice} {w w' : World}

theorem own_abort {q : DeleteMessage} (hs : Sane w.pg)
    (hq : some (DeleteMessage.rollback aborted,w) = some (q,w')) :
    Advance x p T w.pg w'.pg ∧ q.Assert p w'.pg := by
  obtain ⟨rfl,rfl⟩ := Prod.mk.inj (Option.some.inj hq)
  exact ⟨.refl hs,trivial⟩

theorem own_select {u m : Uuid} {q : DeleteMessage} (hs : Sane w.pg) (h : w.pg.Idle p)
    (hq : (DeleteMessage.select u m).step p ch w = some (q,w')) :
    Advance x p T w.pg w'.pg ∧ q.Assert p w'.pg := by
  simp only [step] at hq
  split at hq
  · obtain ⟨rfl,rfl⟩ := Prod.mk.inj (Option.some.inj hq)
    exact ⟨.refl hs,h⟩
  · split at hq
    · obtain ⟨rfl,rfl⟩ := Prod.mk.inj (Option.some.inj hq)
      exact ⟨.refl hs,h⟩
    · rename_i msg hmsg
      obtain ⟨hmem,hid⟩ := Db.of_message? hmsg
      split_ifs at hq with hsender hdel
      · obtain ⟨rfl,rfl⟩ := Prod.mk.inj (Option.some.inj hq)
        exact ⟨.refl hs,h⟩
      · obtain ⟨rfl,rfl⟩ := Prod.mk.inj (Option.some.inj hq)
        exact ⟨.refl hs,h,msg,hmem,hid,rfl,hdel⟩
      · obtain ⟨rfl,rfl⟩ := Prod.mk.inj (Option.some.inj hq)
        exact ⟨.refl hs,h,msg,hmem,hid,rfl⟩

theorem own_wipe {m c : Uuid} {q : DeleteMessage} (hs : Sane w.pg)
    (h : w.pg.Idle p ∧ w.pg.db.HasMessage m c)
    (hq : (DeleteMessage.wipe m c).step p ch w = some (q,w')) :
    Advance x p T w.pg w'.pg ∧ q.Assert p w'.pg := by
  simp only [step] at hq
  split at hq
  · exact own_abort hs hq
  · obtain ⟨pg',hst,rfl,rfl⟩ := own_statement hq
    have hm : (w.pg.view p).message? m ≠ none := by
      obtain ⟨r,hr,rfl,_⟩ := h.2
      rw [h.1.view,hs.integrity.message?_of_mem hr]
      simp
    unfold wipeRow at hst
    split at hst
    · contradiction
    · obtain ⟨hdb,hp,_,_⟩ := Pg.statement_spec hst
      exact ⟨.statement hs hst,by rw [hp,h.1.pending]; rfl,hdb ▸ h.2⟩

theorem own_lock {m c : Uuid} {q : DeleteMessage} (hs : Sane w.pg)
    (h : (DeleteMessage.lock m c).Assert p w.pg)
    (hq : (DeleteMessage.lock m c).step p ch w = some (q,w')) :
    Advance x p T w.pg w'.pg ∧ q.Assert p w'.pg := by
  obtain ⟨ids,hp,hm⟩ := h
  have hch : w.pg.db.HasChannel c := by
    obtain ⟨r,hr,_,rfl⟩ := hm
    exact hs.integrity.messageChannel r hr
  have hlast : ((w.pg.view p).channel? c).bind (·.lastMessageId) = w.pg.db.lastMessageId c := by
    rw [Pg.view,hp]
    rfl
  simp only [step,hlast] at hq
  split at hq
  · exact own_abort hs hq
  · obtain ⟨pg',hl,rfl,rfl⟩ := own_statement hq
    obtain ⟨hacq,ho⟩ := Open.of_lockChannel hp hch rfl hl
    have hdb := (Pg.acquire_spec hacq).1
    refine ⟨.acquire hs hacq,?_⟩
    simp only
    rw [← hdb] at hm ⊢
    split
    · rename_i he
      exact ⟨ids,ho,hm,he⟩
    · rename_i he
      exact ⟨hm,ids,.inl ⟨ho,he⟩⟩

theorem own_previous {m c : Uuid} {q : DeleteMessage} (hs : Sane w.pg)
    (h : (DeleteMessage.previous m c).Assert p w.pg)
    (hq : (DeleteMessage.previous m c).step p ch w = some (q,w')) :
    Advance x p T w.pg w'.pg ∧ q.Assert p w'.pg := by
  obtain ⟨ids,ho,hm,hlast⟩ := h
  simp only [step] at hq
  split at hq
  · exact own_abort hs hq
  · obtain ⟨rfl,rfl⟩ := Prod.mk.inj (Option.some.inj hq)
    refine ⟨.refl hs,ids,ho,hm,hlast,?_⟩
    rw [ho.view,predecessors_wipe]
    cases hpick : Db.pick ch.pick (predecessors w.pg.db m c) with
    | none => exact Db.pick_eq_none hpick
    | some r => exact Db.pick_mem hpick

theorem own_commit {m c : Uuid} {q : DeleteMessage} (hs : Sane w.pg)
    (h : (DeleteMessage.commit m c).Assert p w.pg)
    (hq : (DeleteMessage.commit m c).step p ch w = some (q,w')) :
    Advance x p (DeleteMessage.commit m c).Commits w.pg w'.pg ∧ q.Assert p w'.pg := by
  simp only [step] at hq
  split at hq
  · exact own_abort hs hq
  · obtain ⟨rfl,rfl⟩ := Prod.mk.inj (Option.some.inj hq)
    obtain ⟨hm,ids,hcase⟩ := h
    have hboth : Deleted m c w.pg.db (w.pg.view p) ∧ w.pg.Holds p (.channel c) .update := by
      rcases hcase with ⟨ho,hlast⟩ | ⟨prev,ho,hlast,hprev⟩
      · exact ⟨deleted_of_kept ho hm hlast,ho.lock⟩
      · exact ⟨deleted_of_moved ho hm hlast hprev,ho.lock⟩
    obtain ⟨hdel,hlock⟩ := hboth
    refine ⟨.commit hs hdel (.deleted m c hdel) fun l => ?_,.commit _ _,isWiped_of_deleted hdel⟩
    rcases hdel.keeps x hs.integrity l with hk | rfl
    · exact .inl hk
    · exact .inr ⟨_,hlock⟩

/-- Every step of `deleteMessage` keeps its assertion and respects the locks of the
others. -/
theorem own {q q' : DeleteMessage} (hs : Sane w.pg) (h : q.Assert p w.pg)
    (hq : q.step p ch w = some (q',w')) : Advance x p q.Commits w.pg w'.pg ∧ q'.Assert p w'.pg := by
  cases q with
  | select u m => exact own_select hs h hq
  | begin m c =>
    obtain ⟨rfl,rfl⟩ := Prod.mk.inj (Option.some.inj hq)
    exact ⟨.refl hs,h⟩
  | wipe m c => exact own_wipe hs h hq
  | reactions m c =>
    simp only [step] at hq
    split at hq
    · exact own_abort hs hq
    · obtain ⟨pg',hst,rfl,rfl⟩ := own_statement hq
      obtain ⟨hdb,hp,_,_⟩ := Pg.statement_spec hst
      exact ⟨.statement hs hst,_,by rw [hp,h.1]; rfl,hdb ▸ h.2⟩
  | lock m c => exact own_lock hs h hq
  | previous m c => exact own_previous hs h hq
  | lastMessage m c prev =>
    obtain ⟨ids,ho,hm,hlast,hprev⟩ := h
    simp only [step] at hq
    split at hq
    · exact own_abort hs hq
    · obtain ⟨pg',hst,rfl,rfl⟩ := own_statement hq
      have hdb := (Pg.statement_spec hst).1
      refine ⟨.statement hs hst,?_⟩
      simp only [Assert,hdb]
      exact ⟨hm,ids,.inr ⟨prev,ho.statement hst,hlast,hprev⟩⟩
  | commit m c => exact own_commit hs h hq
  | rollback err =>
    obtain ⟨rfl,rfl⟩ := Prod.mk.inj (Option.some.inj hq)
    exact ⟨.rollback hs,.rollback _ _⟩
  | invalidate m c =>
    obtain ⟨rfl,rfl⟩ := Prod.mk.inj (Option.some.inj hq)
    have hpg : (if ch.fail then w else { w with redis := w.redis.invalidateMessages c }).pg = w.pg := by
      split <;> rfl
    rw [hpg]
    exact ⟨.refl hs,h⟩
  | emit m c =>
    obtain ⟨rfl,rfl⟩ := Prod.mk.inj (Option.some.inj hq)
    exact ⟨.refl hs,h⟩
  | done m c => simp [step] at hq
  | failed err => simp [step] at hq

end DeleteMessage

end ZevraServer
