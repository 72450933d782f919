import ZevraServer.ReactionEdges

/-!
# One reaction for each user and message

The advisory lock on a message and a user keeps the insertions of other calls away,
so while it is held the rows of the pair only shrink, whatever the deletions of
others do. A row found by a `DELETE` is locked until the commit, so the rows the
commit takes away are the rows the statement returned.
-/

namespace ZevraServer.Reactions

open ReadCommitted Interleaving

/-- At most one row for each message and user. -/
def OneEach (db : Db) : Prop :=
  ∀ m u, (db.reactions.filter fun r => r.messageId = m ∧ r.userId = u).length ≤ 1

/-- What a lock on the resource keeps others from changing. -/
def keeps (hash : String → ℤ) : Lockable → Db → Db → Prop
  | .row (.reaction i), d, e => (e.reactions.filter fun r => r.id = i) = d.reactions.filter fun r => r.id = i
  | .advisory a b, d, e =>
    ∀ r ∈ e.reactions, hash r.messageId.text = a → hash r.userId.text = b → r ∈ d.reactions
  | _, _, _ => True

theorem keeps_refl (hash : String → ℤ) (l : Lockable) (d : Db) : keeps hash l d d := by
  cases l with
  | row r => cases r <;> simp [keeps]
  | key m u e => trivial
  | advisory a b => exact fun r hr _ _ => hr

theorem keeps_trans (hash : String → ℤ) {l : Lockable} {d e f : Db} (h : keeps hash l d e)
    (h' : keeps hash l e f) : keeps hash l d f := by
  cases l with
  | row r =>
    cases r with
    | reaction i => exact h'.trans h
    | _ => trivial
  | key m u e => trivial
  | advisory a b => exact fun r hr ha hb => h r (h' r hr ha hb) ha hb

def discipline (hash : String → ℤ) : Discipline Db Lockable where
  keeps := keeps hash
  grows _ _ := True
  keeps_refl := keeps_refl hash
  keeps_trans := fun _ h h' => keeps_trans hash h h'
  grows_refl _ := trivial
  grows_trans _ _ := trivial

variable {hash : String → ℤ} {p : ℕ} {pg pg' : Postgres} {ch : Choice} {w w' : World}
  {rows new : List ReactionRow} {r : Request}

/-! ### What a transaction changes -/

/-- The database changes by the deletion of some rows and the insertion of others. -/
def Changed (rows new : List ReactionRow) (d e : Db) : Prop :=
  e.reactions = d.reactions.filter (· ∉ rows)++new

/-- The other resources keep what they protect. -/
theorem keeps_of_changed (hash : String → ℤ) {d e : Db} (h : Changed rows new d e) (l : Lockable) :
    keeps hash l d e ∨ (∃ x ∈ rows++new, l = .row (.reaction x.id)) ∨
      ∃ x ∈ new, l = .advisory (hash x.messageId.text) (hash x.userId.text) := by
  cases l with
  | key m u e => exact .inl trivial
  | row s =>
    cases s with
    | reaction i =>
      by_cases hi : ∃ x ∈ rows++new, x.id = i
      · obtain ⟨x,hx,rfl⟩ := hi
        exact .inr (.inl ⟨x,hx,rfl⟩)
      · left
        have hnot : ∀ x ∈ rows++new, x.id ≠ i := fun x hx hxi => hi ⟨x,hx,hxi⟩
        have hnew : new.filter (fun x => decide (x.id = i)) = [] := by
          refine List.filter_eq_nil_iff.mpr fun x hx => ?_
          simpa using hnot x (List.mem_append_right _ hx)
        have hold : ((d.reactions.filter (· ∉ rows)).filter fun x => decide (x.id = i)) =
            d.reactions.filter fun x => decide (x.id = i) := by
          rw [List.filter_filter]
          refine List.filter_congr fun x _ => ?_
          by_cases hx : x.id = i
          · have : x ∉ rows := fun hm => hnot x (List.mem_append_left _ hm) hx
            simp [hx,this]
          · simp [hx]
        show (e.reactions.filter fun x => decide (x.id = i)) = _
        rw [h,List.filter_append,hold,hnew,List.append_nil]
    | _ => exact .inl trivial
  | advisory a b =>
    by_cases hn : ∃ x ∈ new, hash x.messageId.text = a ∧ hash x.userId.text = b
    · obtain ⟨x,hx,rfl,rfl⟩ := hn
      exact .inr (.inr ⟨x,hx,rfl⟩)
    · left
      intro x hx ha hb
      rw [h] at hx
      rcases List.mem_append.mp hx with hx | hx
      · exact List.mem_of_mem_filter hx
      · exact absurd ⟨x,hx,ha,hb⟩ hn

theorem OneEach.delete {d e : Db} (h : OneEach d) (hc : Changed rows [] d e) : OneEach e := by
  intro m u
  rw [hc,List.append_nil]
  exact ((List.filter_sublist.filter _).length_le).trans (h m u)

/-- What a step of one call keeps for the tables and for the others. -/
structure Kept (hash : String → ℤ) (p : ℕ) (pg pg' : Postgres) : Prop where
  sound : pg'.Sound
  one : OneEach pg'.db
  rely : (discipline hash).Guarantee p pg pg'

namespace Kept

theorem refl (hs : pg.Sound) (ho : OneEach pg.db) : Kept hash p pg pg := ⟨hs,ho,.refl p pg⟩

theorem acquire {ls : List (Lockable × Mode)} (hs : pg.Sound) (ho : OneEach pg.db)
    (h : pg.acquire p ls = some pg') : Kept hash p pg pg' :=
  ⟨hs.acquire h,by rwa [(Pg.acquire_spec h).1],.acquire h⟩

theorem statement {ls : List (Lockable × Mode)} {ws : List Change} (hs : pg.Sound) (ho : OneEach pg.db)
    (h : pg.statement p ls ws = some pg') : Kept hash p pg pg' :=
  ⟨hs.statement h,by rwa [(Pg.statement_spec h).1],.statement h⟩

theorem rollback (hs : pg.Sound) (ho : OneEach pg.db) : Kept hash p pg (pg.rollback p) :=
  ⟨hs.release _ _ p,ho,.rollback p pg⟩

theorem commit (hs : pg.Sound) (hc : Changed rows new pg.db (pg.view p)) (ho : OneEach (pg.view p))
    (hrows : ∀ x ∈ rows++new, pg.Holds p (.row (.reaction x.id)) .update)
    (hnew : ∀ x ∈ new, pg.Holds p (.advisory (hash x.messageId.text) (hash x.userId.text)) .update) :
    Kept hash p pg (pg.commit p) := by
  refine ⟨hs.release _ _ p,ho,.commit hs (fun l => ?_) trivial⟩
  rcases keeps_of_changed hash hc l with h | ⟨x,hx,rfl⟩ | ⟨x,hx,rfl⟩
  · exact .inl h
  · exact .inr ⟨_,hrows x hx⟩
  · exact .inr ⟨_,hnew x hx⟩

/-- A deletion that commits at once. -/
theorem auto (hs : pg.Sound) (ho : OneEach pg.db)
    (h : pg.auto p (rowLocks rows) [.deleteReactions rows] = some pg') : Kept hash p pg pg' := by
  obtain ⟨_,rfl⟩ := Pg.auto_eq h
  have hc : Changed rows [] pg.db (applyAll [Change.deleteReactions rows] pg.db) := by
    simp [Changed,Writable.apply,apply]
  refine ⟨hs,ho.delete hc,.auto h (fun l => ?_) trivial⟩
  rcases keeps_of_changed hash hc l with h | ⟨x,hx,rfl⟩ | ⟨x,hx,_⟩
  · exact .inl h
  · rw [List.append_nil] at hx
    exact .inr ⟨_,List.mem_map.mpr ⟨x,hx,rfl⟩⟩
  · simp at hx

end Kept

/-! ### The transaction of `addReaction` -/

/-- The text of the message id is the one Postgres writes. -/
def Request.Canonical (r : Request) : Prop := r.message.text = r.messageId

/-- What the `DELETE` of a transaction knows from its snapshot on. -/
structure Request.Replaces (hash : String → ℤ) (r : Request) (p : ℕ) (pg : Postgres)
    (rows : List ReactionRow) : Prop where
  canonical : r.Canonical
  advisory : pg.Holds p (r.advisory hash) .update
  small : rows.length ≤ 1
  found : ∀ x ∈ rows, r.replaceable x = true
  all : ∀ x ∈ pg.db.reactions, r.replaceable x = true → x ∈ rows

/-- What it knows once it has deleted the rows. -/
structure Request.Replaced (hash : String → ℤ) (r : Request) (p : ℕ) (pg : Postgres)
    (rows : List ReactionRow) (replaced : List String) : Prop extends r.Replaces hash p pg rows where
  locks : ∀ x ∈ rows, pg.Holds p (.row (.reaction x.id)) .update
  emojis : replaced = (returning pg.db rows).map (·.emoji)

/-- The assertion of `addReaction` at each of its control states. -/
def AddReaction.Assert (hash : String → ℤ) (p : ℕ) (pg : Postgres) : AddReaction → Prop
  | .load r => r.Canonical ∧ pg.Idle p
  | .lock r => r.Canonical ∧ pg.Idle p
  | .remove r => r.Canonical ∧ pg.Holds p (r.advisory hash) .update ∧ pg.pending p = []
  | .removing r rows => r.Replaces hash p pg rows ∧ pg.pending p = []
  | .insert r replaced => ∃ rows, r.Replaced hash p pg rows replaced ∧ pg.pending p = [.deleteReactions rows]
  | .commit r res => ∃ rows, r.Replaced hash p pg rows res.replaced ∧
      (res.action = .alreadyExists ∧ pg.pending p = [.deleteReactions rows] ∨
        res.action = .added ∧ ∃ id, pg.pending p = [.deleteReactions rows,.insertReaction (r.row id)] ∧
          pg.Holds p (.row (.reaction id)) .update ∧ ∀ x ∈ pg.db.reactions, r.removable x = false)
  | .rollback _ => True
  | .broadcast _ _ => pg.Idle p
  | .done _ => pg.Idle p
  | .failed _ => pg.Idle p

theorem Request.of_pair {x : ReactionRow} (h : r.replaceable x = true ∨ r.removable x = true) :
    x.messageId = r.message ∧ x.userId = r.actor.id := by
  rcases h with h | h <;>
  · simp only [replaceable,removable,Bool.and_eq_true,decide_eq_true_eq] at h
    exact h.1

/-- While the advisory lock is held, the rows of the message and the user only shrink. -/
theorem Request.shrinks (hc : r.Canonical) (hr : (discipline hash).Rely p pg pg')
    (h : pg.Holds p (r.advisory hash) .update) {x : ReactionRow} (hx : x ∈ pg'.db.reactions)
    (hp : r.replaceable x = true ∨ r.removable x = true) : x ∈ pg.db.reactions := by
  obtain ⟨hm,hu⟩ := r.of_pair hp
  refine hr.keeps _ h x hx ?_ ?_
  · rw [hm,hc]
  · rw [hu]

theorem Request.Replaces.stable (h : r.Replaces hash p pg rows) (hr : (discipline hash).Rely p pg pg') :
    r.Replaces hash p pg' rows where
  canonical := h.canonical
  advisory := (hr.locks _ _).mpr h.advisory
  small := h.small
  found := h.found
  all x hx hp := h.all x (r.shrinks h.canonical hr h.advisory hx (.inl hp)) hp

/-- Rows that are locked stay where they are. -/
theorem returning_stable (hr : (discipline hash).Rely p pg pg') (hsmall : rows.length ≤ 1)
    (hl : ∀ x ∈ rows, pg.Holds p (.row (.reaction x.id)) .update) :
    returning pg'.db rows = returning pg.db rows := by
  match rows, hsmall with
  | [], _ => simp [returning]
  | [x], _ =>
    have hkeep := hr.keeps _ (hl x (by simp))
    have hsplit : ∀ d : Db, returning d [x] = (d.reactions.filter fun y => y.id = x.id).filter (· = x) := by
      intro d
      rw [List.filter_filter,returning]
      refine List.filter_congr fun y _ => ?_
      by_cases hy : y = x <;> simp [hy]
    rw [hsplit,hsplit]
    exact congrArg _ hkeep

theorem Request.Replaced.stable {replaced : List String} (h : r.Replaced hash p pg rows replaced)
    (hr : (discipline hash).Rely p pg pg') : r.Replaced hash p pg' rows replaced where
  toReplaces := h.toReplaces.stable hr
  locks x hx := (hr.locks _ _).mpr (h.locks x hx)
  emojis := by rw [returning_stable hr h.small h.locks,h.emojis]

/-- Other calls do not disturb the assertion. -/
theorem AddReaction.Assert.stable {q : AddReaction} (h : q.Assert hash p pg)
    (hr : (discipline hash).Rely p pg pg') : q.Assert hash p pg' := by
  cases q with
  | load r => exact ⟨h.1,hr.idle h.2⟩
  | lock r => exact ⟨h.1,hr.idle h.2⟩
  | remove r => exact ⟨h.1,(hr.locks _ _).mpr h.2.1,hr.pending.trans h.2.2⟩
  | removing r rows => exact ⟨h.1.stable hr,hr.pending.trans h.2⟩
  | insert r replaced =>
    obtain ⟨rows,hrep,hp⟩ := h
    exact ⟨rows,hrep.stable hr,hr.pending.trans hp⟩
  | commit r res =>
    obtain ⟨rows,hrep,⟨ha,hp⟩ | ⟨ha,id,hp,hid,hnone⟩⟩ := h
    · exact ⟨rows,hrep.stable hr,.inl ⟨ha,hr.pending.trans hp⟩⟩
    · refine ⟨rows,hrep.stable hr,.inr ⟨ha,id,hr.pending.trans hp,(hr.locks _ _).mpr hid,fun x hx => ?_⟩⟩
      by_contra hx'
      have hrem : r.removable x = true := by simpa using hx'
      have hold := r.shrinks hrep.canonical hr hrep.advisory hx (.inr hrem)
      rw [hnone x hold] at hrem
      simp at hrem
  | rollback err => trivial
  | broadcast r res => exact hr.idle h
  | done res => exact hr.idle h
  | failed err => exact hr.idle h

/-- The statements of `addReaction` before its insertion change no table. -/
theorem Request.Replaces.replaced (h : r.Replaces hash p pg rows) (hp : pg.pending p = [])
    (hs : pg.statement p (rowLocks rows) [.deleteReactions rows] = some pg') :
    r.Replaced hash p pg' rows ((returning (pg.view p) rows).map (·.emoji)) := by
  obtain ⟨hdb,_,hnew,hold⟩ := Pg.statement_spec hs
  have hview : pg.view p = pg.db := by simp [Pg.view,hp]
  exact
    { canonical := h.canonical
      advisory := hold _ _ _ h.advisory
      small := h.small
      found := h.found
      all := by rw [hdb]; exact h.all
      locks := fun x hx => hnew _ _ (List.mem_map.mpr ⟨x,hx,rfl⟩)
      emojis := by rw [hview,hdb] }

theorem view_delete (h : pg.pending p = [.deleteReactions rows]) :
    (pg.view p).reactions = pg.db.reactions.filter (· ∉ rows) := by
  simp [Pg.view,h,Writable.apply,apply]

theorem view_insert {row : ReactionRow} (h : pg.pending p = [.deleteReactions rows,.insertReaction row]) :
    (pg.view p).reactions = pg.db.reactions.filter (· ∉ rows)++[row] := by
  simp [Pg.view,h,Writable.apply,apply]

/-- What the insertion decides. -/
theorem insertReaction_eq {row : ReactionRow} {inserted : Bool}
    (h : insertReaction pg p row = some (.ok (pg',inserted))) :
    inserted = false ∧ pg' = pg ∨
      inserted = true ∧ (∀ x ∈ (pg.view p).reactions, sameKey row x = false) ∧
        pg.statement p (insertLocks row) [.insertReaction row] = some pg' := by
  unfold insertReaction at h
  split_ifs at h with hlong hfree hany hlocks
  · simp at h
  · simp only [Option.some.injEq,Except.ok.injEq,Prod.mk.injEq] at h
    exact .inl ⟨h.2.symm,h.1.symm⟩
  · cases hv : reactionViolation (pg.view p) row with
    | some err => simp [hv] at h
    | none =>
      simp only [hv,Option.map_eq_some_iff,Except.ok.injEq,Prod.mk.injEq] at h
      obtain ⟨pg₁,hst,rfl,rfl⟩ := h
      exact .inr ⟨rfl,by simpa using hany,hst⟩

theorem removable_eq (r : Request) (id : Uuid) : r.removable = sameKey (r.row id) := by
  funext x
  rfl

/-- The insertion keeps what the transaction knows, and inserts only where the message and
the user have no row left. -/
theorem Request.Replaced.insert {replaced : List String} {id : Uuid} {inserted : Bool}
    (h : r.Replaced hash p pg rows replaced) (hp : pg.pending p = [.deleteReactions rows])
    (hi : insertReaction pg p (r.row id) = some (.ok (pg',inserted))) :
    (AddReaction.commit r ⟨if inserted then .added else .alreadyExists,replaced⟩).Assert hash p pg' := by
  obtain ⟨rfl,rfl⟩ | ⟨rfl,hnone,hst⟩ := insertReaction_eq hi
  · exact ⟨rows,h,.inl ⟨rfl,hp⟩⟩
  · obtain ⟨hdb,hpend,hnew,hold⟩ := Pg.statement_spec hst
    have hreplaced : r.Replaced hash p pg' rows replaced :=
      { canonical := h.canonical
        advisory := hold _ _ _ h.advisory
        small := h.small
        found := h.found
        all := by rw [hdb]; exact h.all
        locks := fun x hx => hold _ _ _ (h.locks x hx)
        emojis := by rw [hdb]; exact h.emojis }
    refine ⟨rows,hreplaced,.inr ⟨rfl,id,by rw [hpend,hp]; rfl,hnew _ _ List.mem_cons_self,fun x hx => ?_⟩⟩
    rw [hdb] at hx
    by_cases hm : x ∈ rows
    · have := h.found x hm
      simp only [replaceable,removable,Bool.and_eq_true,decide_eq_true_eq] at this ⊢
      simp [this.2]
    · rw [removable_eq r id]
      refine hnone x ?_
      rw [view_delete hp]
      exact List.mem_filter.mpr ⟨hx,by simpa using hm⟩

/-- The tables after the insertion have one row for the message and the user. -/
theorem OneEach.insert {d e : Db} {id : Uuid} (h : OneEach d) (hc : Changed rows [r.row id] d e)
    (hall : ∀ x ∈ d.reactions, r.replaceable x = true → x ∈ rows)
    (hnone : ∀ x ∈ d.reactions, r.removable x = false) : OneEach e := by
  intro m u
  rw [hc,List.filter_append]
  have hold : ((d.reactions.filter (· ∉ rows)).filter fun x => decide (x.messageId = m ∧ x.userId = u)).length ≤ 1 :=
    ((List.filter_sublist.filter _).length_le).trans (h m u)
  by_cases hmu : r.message = m ∧ r.actor.id = u
  · have hempty : ((d.reactions.filter (· ∉ rows)).filter fun x => decide (x.messageId = m ∧ x.userId = u)) = [] := by
      refine List.filter_eq_nil_iff.mpr fun x hx => ?_
      obtain ⟨hin,hout⟩ := List.mem_filter.mp hx
      intro hpair
      have hpair : x.messageId = r.message ∧ x.userId = r.actor.id := by
        simpa [hmu.1,hmu.2] using hpair
      have hnot := hnone x hin
      simp only [Request.removable,hpair,decide_true,Bool.true_and,decide_eq_false_iff_not] at hnot
      have hrep : r.replaceable x = true := by simp [Request.replaceable,hpair,hnot]
      simp [hall x hin hrep] at hout
    rw [hempty,List.nil_append]
    exact List.length_filter_le _ _
  · have hnew : ([r.row id].filter fun x => decide (x.messageId = m ∧ x.userId = u)) = [] := by
      refine List.filter_eq_nil_iff.mpr fun x hx => ?_
      obtain rfl := List.mem_singleton.mp hx
      exact fun hd => hmu (of_decide_eq_true hd)
    rw [hnew,List.append_nil]
    exact hold

/-- The assertion of the next control state, and what the step keeps. -/
theorem AddReaction.own {q q' : AddReaction} (hs : w.pg.Sound) (ho : OneEach w.pg.db)
    (h : q.Assert hash p w.pg) (hq : q.step hash p ch w = some (q',w')) :
    Kept hash p w.pg w'.pg ∧ q'.Assert hash p w'.pg := by
  cases AddReaction.edge hq with
  | refused err => exact ⟨.refl hs ho,h.2⟩
  | checked hl hd => exact ⟨.refl hs ho,h⟩
  | abort hin err => exact ⟨.refl hs ho,trivial⟩
  | locked hpg =>
    obtain ⟨_,hpend,hnew,_⟩ := Pg.acquire_spec hpg
    exact ⟨.acquire hs ho hpg,h.1,hnew _ _ (by simp),by rw [hpend,h.2.pending]⟩
  | @found r =>
    obtain ⟨hc,hadv,hp⟩ := h
    have hview : w.pg.view p = w.pg.db := by simp [Pg.view,hp]
    refine ⟨.refl hs ho,⟨hc,hadv,?_,fun x hx => ?_,fun x hx hr => ?_⟩,hp⟩
    · refine le_trans ?_ (ho r.message r.actor.id)
      rw [hview]
      refine (List.monotone_filter_right _ fun x hx => ?_).length_le
      simpa using r.of_pair (.inl hx)
    · exact (List.mem_filter.mp hx).2
    · rw [hview]
      exact List.mem_filter.mpr ⟨hx,hr⟩
  | @removed r rows pg hpg =>
    refine ⟨.statement hs ho hpg,rows,h.1.replaced h.2 hpg,?_⟩
    rw [(Pg.statement_spec hpg).2.1,h.2]
    rfl
  | inserted hi =>
    obtain ⟨rows,hrep,hp⟩ := h
    refine ⟨?_,hrep.insert hp hi⟩
    obtain ⟨_,rfl⟩ | ⟨_,_,hst⟩ := insertReaction_eq hi
    · exact .refl hs ho
    · exact .statement hs ho hst
  | @committed r res =>
    obtain ⟨rows,hrep,hcase⟩ := h
    refine ⟨?_,Pg.Idle.commit _ p⟩
    rcases hcase with ⟨_,hp⟩ | ⟨_,id,hp,hid,hnone⟩
    · have hc : Changed rows [] w.pg.db (w.pg.view p) := by simp [Changed,view_delete hp]
      exact .commit hs hc (ho.delete hc) (by simpa using hrep.locks) (by simp)
    · have hc : Changed rows [r.row id] w.pg.db (w.pg.view p) := view_insert hp
      refine .commit hs hc (ho.insert hc hrep.all hnone) (fun x hx => ?_) fun x hx => ?_
      · rcases List.mem_append.mp hx with hx | hx
        · exact hrep.locks x hx
        · obtain rfl := List.mem_singleton.mp hx
          exact hid
      · obtain rfl := List.mem_singleton.mp hx
        simpa [Request.advisory,Request.row,hrep.canonical.symm] using hrep.advisory
  | rolledBack => exact ⟨.rollback hs ho,Pg.Idle.rollback _ p⟩
  | told => exact ⟨.refl hs ho,h⟩

/-! ### The other calls -/

/-- `removeReaction` never leaves a transaction open. -/
theorem RemoveReaction.own (hash : String → ℤ) {q q' : RemoveReaction} (hs : w.pg.Sound) (ho : OneEach w.pg.db)
    (h : w.pg.Idle p) (hq : q.step p ch w = some (q',w')) : Kept hash p w.pg w'.pg ∧ w'.pg.Idle p := by
  cases RemoveReaction.edge hq with
  | removed hpg =>
    refine ⟨.auto hs ho hpg,?_⟩
    obtain ⟨_,rfl⟩ := Pg.auto_eq hpg
    exact ⟨h.pending,h.locks⟩
  | _ => exact ⟨.refl hs ho,h⟩

namespace DeleteMessage

/-- What the writes of the transaction do to the reactions and to the messages. -/
structure Writes (m : Uuid) (rows : List ReactionRow) (ws : List Change) : Prop where
  reactions : ∀ d : Db, (applyAll ws d).reactions = d.reactions.filter (· ∉ rows)
  messages : ∀ d : Db, (applyAll ws d).messages = d.messages.map (·.wipeIf m)

theorem Writes.wipe (m : Uuid) : Writes m [] [.write (.wipeMessage m)] := by
  constructor <;> intro d <;> simp [Writable.apply,apply,Db.apply]

theorem Writes.point {m c : Uuid} {ws : List Change} {id : Option Uuid} {t : Option ℕ} (h : Writes m rows ws) :
    Writes m rows (ws++[.write (.setLastMessage c id t)]) := by
  constructor <;> intro d
  · simpa [Writable.apply,apply,Db.apply] using h.reactions d
  · simpa [Writable.apply,apply,Db.apply] using h.messages d

theorem Writes.delete {m : Uuid} {ws : List Change} (h : Writes m [] ws) :
    Writes m rows (ws++[.deleteReactions rows]) := by
  constructor <;> intro d
  · simpa [Writable.apply,apply] using congrArg (List.filter (· ∉ rows)) (h.reactions d)
  · simpa [Writable.apply,apply] using h.messages d

theorem Writes.changed {m : Uuid} (h : Writes m rows (pg.pending p)) : Changed rows [] pg.db (pg.view p) := by
  rw [Changed,Pg.view,h.reactions,List.append_nil]

/-- The transaction has deleted the reactions it found. -/
def Swept (p : ℕ) (pg : Postgres) (m : Uuid) (rows : List ReactionRow) : Prop :=
  Writes m rows (pg.pending p) ∧ ∀ x ∈ rows, pg.Holds p (.row (.reaction x.id)) .update

/-- The assertion of `deleteMessage` at each of its control states. -/
def Assert (p : ℕ) (pg : Postgres) : DeleteMessage → Prop
  | .sweep i _ => Writes (.ofText i) [] (pg.pending p)
  | .sweeping i _ _ => Writes (.ofText i) [] (pg.pending p)
  | .lock i _ => ∃ rows, Swept p pg (.ofText i) rows
  | .previous i _ => ∃ rows, Swept p pg (.ofText i) rows
  | .lastMessage i _ _ => ∃ rows, Swept p pg (.ofText i) rows
  | .commit i _ => ∃ rows, Swept p pg (.ofText i) rows
  | .rollback _ => True
  | _ => pg.Idle p

theorem Swept.stable {m : Uuid} (h : Swept p pg m rows) (hr : (discipline hash).Rely p pg pg') :
    Swept p pg' m rows :=
  ⟨by rw [hr.pending]; exact h.1,fun x hx => (hr.locks _ _).mpr (h.2 x hx)⟩

/-- Other calls do not disturb the assertion. -/
theorem Assert.stable {q : DeleteMessage} (h : q.Assert p pg) (hr : (discipline hash).Rely p pg pg') :
    q.Assert p pg' := by
  have hswept : ∀ {m : Uuid}, (∃ rows, Swept p pg m rows) → ∃ rows, Swept p pg' m rows :=
    fun ⟨rows,h⟩ => ⟨rows,h.stable hr⟩
  cases q with
  | sweep i c => exact (congrArg (Writes _ []) hr.pending).mpr h
  | sweeping i c rows => exact (congrArg (Writes _ []) hr.pending).mpr h
  | lock i c => exact hswept h
  | previous i c => exact hswept h
  | lastMessage i c prev => exact hswept h
  | commit i c => exact hswept h
  | rollback err => trivial
  | _ => exact hr.idle h

theorem Swept.acquire {m : Uuid} {ls : List (Lockable × Mode)} (h : Swept p pg m rows)
    (hl : pg.acquire p ls = some pg') : Swept p pg' m rows := by
  obtain ⟨_,hpend,_,hold⟩ := Pg.acquire_spec hl
  exact ⟨by rw [hpend]; exact h.1,fun x hx => hold _ _ _ (h.2 x hx)⟩

/-- Locking the channel adds a lock at most. -/
theorem lockChannel_eq {c : Uuid} (h : lockChannel pg p c = some pg') :
    pg' = pg ∨ pg.acquire p [(.row (.channel c),.update)] = some pg' := by
  unfold lockChannel at h
  split at h
  · exact .inl (Option.some.inj h).symm
  · exact .inr h

theorem own (hash : String → ℤ) {q q' : DeleteMessage} (hs : w.pg.Sound) (ho : OneEach w.pg.db) (h : q.Assert p w.pg)
    (hq : q.step p ch w = some (q',w')) : Kept hash p w.pg w'.pg ∧ q'.Assert p w'.pg := by
  have hlock : ∀ {m c : Uuid} {rows : List ReactionRow} {pg : Postgres}, lockChannel w.pg p c = some pg →
      Swept p w.pg m rows → Kept hash p w.pg pg ∧ Swept p pg m rows := by
    intro m c rows pg hpg hswept
    rcases lockChannel_eq hpg with rfl | hacq
    · exact ⟨.refl hs ho,hswept⟩
    · exact ⟨.acquire hs ho hacq,hswept.acquire hacq⟩
  cases edge hq with
  | refused err => exact ⟨.refl hs ho,h⟩
  | again hm hd => exact ⟨.refl hs ho,h⟩
  | selected hm => exact ⟨.refl hs ho,h⟩
  | abort hin err => exact ⟨.refl hs ho,trivial⟩
  | @wiped i c pg hpg =>
    refine ⟨.statement hs ho hpg,?_⟩
    have hidle : w.pg.pending p = [] := Pg.Idle.pending h
    show Writes _ [] (pg.pending p)
    rw [(Pg.statement_spec hpg).2.1,hidle]
    exact .wipe _
  | found => exact ⟨.refl hs ho,h⟩
  | @swept i c rows pg hpg =>
    obtain ⟨_,hpend,hnew,_⟩ := Pg.statement_spec hpg
    refine ⟨.statement hs ho hpg,rows,?_,fun x hx => hnew _ _ (List.mem_map.mpr ⟨x,hx,rfl⟩)⟩
    rw [hpend]
    exact h.delete
  | last hpg =>
    obtain ⟨rows,hswept⟩ := h
    obtain ⟨hkept,hswept⟩ := hlock hpg hswept
    exact ⟨hkept,rows,hswept⟩
  | other hpg =>
    obtain ⟨rows,hswept⟩ := h
    obtain ⟨hkept,hswept⟩ := hlock hpg hswept
    exact ⟨hkept,rows,hswept⟩
  | before prev => exact ⟨.refl hs ho,h⟩
  | pointed hpg =>
    obtain ⟨rows,hswept⟩ := h
    obtain ⟨_,hpend,_,hold⟩ := Pg.statement_spec hpg
    refine ⟨.statement hs ho hpg,rows,?_,fun x hx => hold _ _ _ (hswept.2 x hx)⟩
    rw [hpend]
    exact hswept.1.point
  | committed =>
    obtain ⟨rows,hswept⟩ := h
    have hc := hswept.1.changed
    exact ⟨.commit hs hc (ho.delete hc) (by simpa using hswept.2) (by simp),Pg.Idle.commit _ p⟩
  | rolledBack => exact ⟨.rollback hs ho,Pg.Idle.rollback _ p⟩
  | told => exact ⟨.refl hs ho,h⟩

end DeleteMessage

/-! ### Every interleaving -/

def Call.Assert (hash : String → ℤ) (p : ℕ) (pg : Postgres) : Call → Prop
  | .add q => q.Assert hash p pg
  | .remove _ => pg.Idle p
  | .delete q => q.Assert p pg

/-- A call of `addReaction` has a canonical message id. -/
def Call.Canonical : Call → Prop
  | .add (.load r) => r.Canonical
  | _ => True

/-- Calls arrive at their first statement, insertions with canonical ids. -/
def Arrives (_ : Config World Call) : Label Call Choice Empty → Prop
  | .spawn q => q.Starts ∧ q.Canonical
  | .run _ _ => True
  | .env _ => True

def rowsOutline (hash : String → ℤ) : Outline (system hash) Arrives where
  inv w := w.pg.Sound ∧ OneEach w.pg.db
  rely p w w' := (discipline hash).Rely p w.pg w'.pg
  idle p w := w.pg.Idle p
  holds p q w := q.Assert hash p w.pg
  spawn hok _ hidle := by
    obtain ⟨hstart,hcanon⟩ := hok
    cases hstart with
    | add r => exact ⟨hcanon,hidle⟩
    | remove r => exact hidle
    | delete u i => exact hidle
  own {c p q ch q' w} _ hinv h hs := by
    cases q with
    | add q =>
      obtain ⟨⟨r,v⟩,hr,he⟩ := Option.map_eq_some_iff.mp hs
      obtain ⟨rfl,rfl⟩ := Prod.mk.inj he
      obtain ⟨hkept,ha⟩ := q.own hinv.1 hinv.2 h hr
      exact ⟨⟨hkept.sound,hkept.one⟩,ha,hkept.rely⟩
    | remove q =>
      obtain ⟨⟨r,v⟩,hr,he⟩ := Option.map_eq_some_iff.mp hs
      obtain ⟨rfl,rfl⟩ := Prod.mk.inj he
      obtain ⟨hkept,ha⟩ := RemoveReaction.own hash hinv.1 hinv.2 h hr
      exact ⟨⟨hkept.sound,hkept.one⟩,ha,hkept.rely⟩
    | delete q =>
      obtain ⟨⟨r,v⟩,hr,he⟩ := Option.map_eq_some_iff.mp hs
      obtain ⟨rfl,rfl⟩ := Prod.mk.inj he
      obtain ⟨hkept,ha⟩ := DeleteMessage.own hash hinv.1 hinv.2 h hr
      exact ⟨⟨hkept.sound,hkept.one⟩,ha,hkept.rely⟩
  env {c e w} _ _ _ := e.elim
  stable {p q w w'} _ _ hr h := by
    cases q with
    | add q => exact AddReaction.Assert.stable h hr
    | remove q => exact hr.idle h
    | delete q => exact DeleteMessage.Assert.stable h hr
  idle_stable hr h := hr.idle h

def removedRows (d e : Db) : List ReactionRow := d.reactions.filter (· ∉ e.reactions)

def insertedRows (d e : Db) : List ReactionRow := e.reactions.filter (· ∉ d.reactions)

/-- The result tells which rows the commit took away and whether it brought one. -/
def Request.Reported (r : Request) (res : AddReactionResult) (d e : Db) : Prop :=
  res.replaced = (removedRows d e).map (·.emoji) ∧ (∀ x ∈ removedRows d e, r.replaceable x = true) ∧
    (res.action = .added ∧ (∃ id, insertedRows d e = [r.row id]) ∨
      res.action = .alreadyExists ∧ insertedRows d e = [])

/-- The rows removed and inserted, read off the tables. -/
theorem Changed.diff {d e : Db} (h : Changed rows new d e) (hnew : ∀ x ∈ new, x ∉ d.reactions ∧ x ∉ rows) :
    removedRows d e = returning d rows ∧ insertedRows d e = new := by
  constructor
  · refine List.filter_congr fun x hx => ?_
    have hmem : x ∈ e.reactions ↔ x ∉ rows := by
      rw [h]
      simp only [List.mem_append,List.mem_filter,decide_eq_true_eq]
      exact ⟨fun hx' => hx'.elim (·.2) fun hn => (hnew x hn).2,fun hn => .inl ⟨hx,hn⟩⟩
    simp [hmem]
  · have hold : (d.reactions.filter (· ∉ rows)).filter (· ∉ d.reactions) = [] := by
      refine List.filter_eq_nil_iff.mpr fun x hx => ?_
      simpa using List.mem_of_mem_filter hx
    rw [insertedRows,h,List.filter_append,hold,List.nil_append]
    exact List.filter_eq_self.mpr fun x hx => by simpa using (hnew x hx).1

/-- What the assertion before the commit says about the tables after it. -/
theorem reported_of_assert {res : AddReactionResult} (h : (AddReaction.commit r res).Assert hash p pg) :
    r.Reported res pg.db (pg.view p) := by
  obtain ⟨rows,hrep,⟨ha,hp⟩ | ⟨ha,id,hp,_,hnone⟩⟩ := h
  · have hc : Changed rows [] pg.db (pg.view p) := by simp [Changed,view_delete hp]
    obtain ⟨hremoved,hinserted⟩ := hc.diff (by simp)
    refine ⟨by rw [hremoved,hrep.emojis],fun x hx => ?_,.inr ⟨ha,hinserted⟩⟩
    rw [hremoved] at hx
    exact hrep.found x (by simpa using (List.mem_filter.mp hx).2)
  · have hc : Changed rows [r.row id] pg.db (pg.view p) := view_insert hp
    have hnew : ∀ x ∈ [r.row id], x ∉ pg.db.reactions ∧ x ∉ rows := by
      intro x hx
      obtain rfl := List.mem_singleton.mp hx
      have hrem : r.removable (r.row id) = true := by simp [Request.removable,Request.row]
      refine ⟨fun hin => ?_,fun hin => ?_⟩
      · rw [hnone _ hin] at hrem
        simp at hrem
      · have := hrep.found _ hin
        simp [Request.replaceable,Request.row] at this
    obtain ⟨hremoved,hinserted⟩ := hc.diff hnew
    refine ⟨by rw [hremoved,hrep.emojis],fun x hx => ?_,.inl ⟨ha,id,hinserted⟩⟩
    rw [hremoved] at hx
    exact hrep.found x (by simpa using (List.mem_filter.mp hx).2)

/-- Only the commit leads to the broadcast. -/
theorem AddReaction.step_commits {q : AddReaction} {res : AddReactionResult}
    (h : q.step hash p ch w = some (.broadcast r res,w')) :
    q = .commit r res ∧ w' = { w with pg := w.pg.commit p } := by
  cases AddReaction.edge h with
  | committed => exact ⟨rfl,rfl⟩

/-- From tables with at most one reaction for each message and user every run leads to such
tables, and whoever commits an `addReaction` reports what it removed and whether it inserted. -/
theorem one_reaction (hash : String → ℤ) (w₀ : World) (hidle : ∀ p, w₀.pg.Idle p) (hone : OneEach w₀.pg.db)
    {c : Config World Call} (hrun : Run (system hash) Arrives ⟨w₀,[]⟩ c) :
    OneEach c.world.pg.db ∧ ∀ p ch d r res, (system hash).next c (.run p ch) = some d →
      d.pool[p]? = some (.add (.broadcast r res)) → r.Reported res c.world.pg.db d.world.pg.db := by
  have hsound : w₀.pg.Sound := by
    intro k hk
    exact absurd rfl ((hidle k.owner).locks k hk)
  have hvalid := (rowsOutline hash).sound ⟨hsound,hone⟩ hidle hrun
  refine ⟨hvalid.inv.2,fun p ch d r res hn hd => ?_⟩
  obtain ⟨q,q',w,hq,hs,rfl⟩ := (system hash).next_run hn
  have hlt : p < c.pool.length := (List.getElem?_eq_some_iff.mp hq).1
  obtain rfl : q' = .add (.broadcast r res) := by
    simpa [List.getElem?_set_self hlt] using hd
  have hassert := hvalid.holds p q hq
  cases q with
  | add q =>
    obtain ⟨⟨q',v⟩,hr,he⟩ := Option.map_eq_some_iff.mp hs
    obtain ⟨hq',rfl⟩ := Prod.mk.inj he
    obtain rfl := Call.add.inj hq'
    obtain ⟨rfl,rfl⟩ := AddReaction.step_commits hr
    exact reported_of_assert hassert
  | remove q =>
    obtain ⟨r,_,he⟩ := Option.map_eq_some_iff.mp hs
    simp at he
  | delete q =>
    obtain ⟨r,_,he⟩ := Option.map_eq_some_iff.mp hs
    simp at he

/-! A user reacts from two devices at once. -/

def ada : ReactionActor := ⟨1,"ada"⟩

def bob : ReactionActor := ⟨2,"bob"⟩

def small : Db where
  users := [⟨1,"ada","",true⟩,⟨2,"bob","",true⟩]
  channels := [⟨3,some "choir",.group,false,some 5,some 10,0⟩]
  memberships := [⟨11,.admin,0,none,1,3⟩,⟨12,.member,0,none,2,3⟩]
  messages := [⟨5,"TEXT","la","iv","tag","sig",1,0,none,false,10,2,3⟩]
  reactions := []

def start : World := ⟨⟨small,fun _ => [],[]⟩,[]⟩

def react (actor : ReactionActor) (emoji : String) : Request := ⟨actor,Uuid.text 3,Uuid.text 5,emoji⟩

def draws (id : Uuid) : Choice := ⟨false,false,false,[id],0,0⟩

def byLength (s : String) : ℤ := s.length

theorem start_idle (p : ℕ) : start.pg.Idle p := ⟨rfl,by simp [start]⟩

/-- The checks of `Arrives`. -/
def arrives (_ : Config World Call) : Label Call Choice Empty → Bool
  | .spawn (.add (.load r)) => r.message.text = r.messageId
  | .spawn (.remove (.load _)) => true
  | .spawn (.delete (.select _ _)) => true
  | .spawn _ => false
  | .run _ _ => true
  | .env _ => true

theorem arrives_sound (c : Config World Call) (l : Label Call Choice Empty) (h : arrives c l = true) :
    Arrives c l := by
  unfold arrives at h
  split at h
  · exact ⟨.add _,by simpa [Call.Canonical,Request.Canonical] using h⟩
  · exact ⟨.remove _,trivial⟩
  · exact ⟨.delete _ _,trivial⟩
  · simp at h
  · trivial
  · trivial

/-- Both devices load the message before either takes the lock. -/
def toggles : List (Label Call Choice Empty) :=
  [.spawn (.add (.load (react ada "+1"))),.spawn (.add (.load (react ada "heart"))),.run 0 (draws 0),
    .run 1 (draws 0)]++List.replicate 5 (.run 0 (draws 21))++List.replicate 4 (.run 1 (draws 22))

theorem one_reaction_toggles : ∃ c d, Run (system byLength) Arrives ⟨start,[]⟩ c ∧
    (system byLength).next c (.run 1 (draws 0)) = some d ∧
      OneEach c.world.pg.db ∧ (react ada "heart").Reported ⟨.added,["+1"]⟩ c.world.pg.db d.world.pg.db := by
  obtain ⟨c,hc,hf⟩ := Run.exists_of_exec (S := system byLength) (c := ⟨start,[]⟩) arrives_sound toggles
    (f := fun c => ((system byLength).next c (.run 1 (draws 0))).bind (·.pool[1]?))
    (v := some (.add (.broadcast (react ada "heart") ⟨.added,["+1"]⟩))) (by decide +kernel)
  obtain ⟨d,hd,hpool⟩ := Option.bind_eq_some_iff.mp hf
  obtain ⟨hone,hreported⟩ := one_reaction byLength start start_idle (by simp [OneEach,start,small]) hc
  exact ⟨c,d,hc,hd,hone,hreported 1 (draws 0) d _ _ hd hpool⟩

end ZevraServer.Reactions
