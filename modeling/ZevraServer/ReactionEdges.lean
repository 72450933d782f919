import ZevraServer.Reactions

/-!
# The control flow of the calls on reactions

One constructor for each way a call can move, with the statement that succeeded and
the world it leaves behind. The assertions about a call are carried along these edges.
-/

namespace ZevraServer.Reactions

open ReadCommitted Interleaving

variable {hash : String → ℤ} {p : ℕ} {ch : Choice} {w w' : World}

theorem World.after_eq {Q : Type} {q q' : Q} {o : Option Postgres} (h : w.after q o = some (q',w')) :
    ∃ pg, o = some pg ∧ q' = q ∧ w' = { w with pg := pg } := by
  obtain ⟨pg,hpg,he⟩ := Option.map_eq_some_iff.mp h
  simp only [Prod.mk.injEq] at he
  exact ⟨pg,hpg,he.1.symm,he.2.symm⟩

/-- A statement that may have to wait fails or leaves its tables behind. -/
theorem World.query_cases {Q : Type} {q q' e : Q} {o : Option Postgres} {fail : Bool}
    (h : (if fail then some (e,w) else w.after q o) = some (q',w')) :
    q' = e ∧ w' = w ∨ ∃ pg, o = some pg ∧ q' = q ∧ w' = { w with pg := pg } := by
  split at h
  · obtain ⟨rfl,rfl⟩ := Prod.mk.inj (Option.some.inj h)
    exact .inl ⟨rfl,rfl⟩
  · exact .inr (World.after_eq h)

/-- Any other statement fails or succeeds at once. -/
theorem World.read_cases {Q : Type} {q q' e : Q} {v : World} {fail : Bool}
    (h : (if fail then some (e,w) else some (q,v)) = some (q',w')) :
    q' = e ∧ w' = w ∨ q' = q ∧ w' = v := by
  split at h <;> obtain ⟨rfl,rfl⟩ := Prod.mk.inj (Option.some.inj h)
  · exact .inl ⟨rfl,rfl⟩
  · exact .inr ⟨rfl,rfl⟩

/-! ### `addReaction` -/

/-- Control states of the transaction. -/
def AddReaction.inTransaction : AddReaction → Bool
  | .lock _ | .remove _ | .removing _ _ | .insert _ _ | .commit _ _ => true
  | _ => false

inductive AddReaction.Edge (hash : String → ℤ) (p : ℕ) (ch : Choice) (w : World) :
    AddReaction → AddReaction → World → Prop
  | refused {r} (err) : Edge hash p ch w (.load r) (.failed err) w
  | checked {r t} (hl : r.loadTarget w.pg.db = .ok t) (hd : t.isDeleted = false) :
      Edge hash p ch w (.load r) (.lock r) w
  | abort {q} (h : q.inTransaction = true) (err) : Edge hash p ch w q (.rollback err) w
  | locked {r pg} (h : w.pg.acquire p [(r.advisory hash,.update)] = some pg) :
      Edge hash p ch w (.lock r) (.remove r) { w with pg := pg }
  | found {r} : Edge hash p ch w (.remove r) (.removing r ((w.pg.view p).reactions.filter r.replaceable)) w
  | removed {r rows pg} (h : w.pg.statement p (rowLocks rows) [.deleteReactions rows] = some pg) :
      Edge hash p ch w (.removing r rows) (.insert r ((returning (w.pg.view p) rows).map (·.emoji)))
        { w with pg := pg }
  | inserted {r replaced pg inserted}
      (h : insertReaction w.pg p (r.row (ch.ids.headD 0)) = some (.ok (pg,inserted))) :
      Edge hash p ch w (.insert r replaced)
        (.commit r ⟨if inserted then .added else .alreadyExists,replaced⟩) { w with pg := pg }
  | committed {r res} : Edge hash p ch w (.commit r res) (.broadcast r res) { w with pg := w.pg.commit p }
  | rolledBack {err} : Edge hash p ch w (.rollback err) (.failed (.database err))
      { w with pg := w.pg.rollback p }
  | told {r res} : Edge hash p ch w (.broadcast r res) (.done res) (w.emit (r.added res))

theorem AddReaction.edge {q q' : AddReaction} (h : q.step hash p ch w = some (q',w')) :
    AddReaction.Edge hash p ch w q q' w' := by
  cases q with
  | load r =>
    simp only [AddReaction.step] at h
    split at h
    · obtain ⟨rfl,rfl⟩ := Prod.mk.inj (Option.some.inj h)
      exact .refused _
    · split at h
      · obtain ⟨rfl,rfl⟩ := Prod.mk.inj (Option.some.inj h)
        exact .refused _
      · rename_i hl
        split at h <;> rename_i hd <;> obtain ⟨rfl,rfl⟩ := Prod.mk.inj (Option.some.inj h)
        · exact .refused _
        · exact .checked hl (by simpa using hd)
  | lock r =>
    obtain ⟨rfl,rfl⟩ | ⟨pg,hpg,rfl,rfl⟩ := World.query_cases h
    · exact .abort rfl _
    · exact .locked hpg
  | remove r =>
    obtain ⟨rfl,rfl⟩ | ⟨rfl,rfl⟩ := World.read_cases h
    · exact .abort rfl _
    · exact .found
  | removing r rows =>
    obtain ⟨rfl,rfl⟩ | ⟨pg,hpg,rfl,rfl⟩ := World.query_cases h
    · exact .abort rfl _
    · exact .removed hpg
  | insert r replaced =>
    simp only [AddReaction.step] at h
    split at h
    · obtain ⟨rfl,rfl⟩ := Prod.mk.inj (Option.some.inj h)
      exact .abort rfl _
    · split at h
      · simp at h
      · obtain ⟨rfl,rfl⟩ := Prod.mk.inj (Option.some.inj h)
        exact .abort rfl _
      · rename_i hi
        obtain ⟨rfl,rfl⟩ := Prod.mk.inj (Option.some.inj h)
        exact .inserted hi
  | commit r res =>
    obtain ⟨rfl,rfl⟩ | ⟨rfl,rfl⟩ := World.read_cases h
    · exact .abort rfl _
    · exact .committed
  | rollback err =>
    obtain ⟨rfl,rfl⟩ := Prod.mk.inj (Option.some.inj h)
    exact .rolledBack
  | broadcast r res =>
    obtain ⟨rfl,rfl⟩ := Prod.mk.inj (Option.some.inj h)
    exact .told
  | done res => simp [AddReaction.step] at h
  | failed err => simp [AddReaction.step] at h

/-! ### `removeReaction` -/

inductive RemoveReaction.Edge (p : ℕ) (w : World) : RemoveReaction → RemoveReaction → World → Prop
  | refused {r} (err) : Edge p w (.load r) (.failed err) w
  | checked {r t} (hl : r.loadTarget w.pg.db = .ok t) : Edge p w (.load r) (.remove r) w
  | lost {r} (err) : Edge p w (.remove r) (.failed err) w
  | found {r} : Edge p w (.remove r) (.removing r (w.pg.db.reactions.filter r.removable)) w
  | abort {r rows} (err) : Edge p w (.removing r rows) (.failed err) w
  | removed {r rows pg} (h : w.pg.auto p (rowLocks rows) [.deleteReactions rows] = some pg) :
      Edge p w (.removing r rows) (.broadcast r (!(returning w.pg.db rows).isEmpty)) { w with pg := pg }
  | told {r deleted} : Edge p w (.broadcast r deleted) (.done (if deleted then .removed else .notFound))
      (w.emit (if deleted then [r.removed] else []))

theorem RemoveReaction.edge {q q' : RemoveReaction} (h : q.step p ch w = some (q',w')) :
    RemoveReaction.Edge p w q q' w' := by
  cases q with
  | load r =>
    simp only [RemoveReaction.step] at h
    split at h
    · obtain ⟨rfl,rfl⟩ := Prod.mk.inj (Option.some.inj h)
      exact .refused _
    · split at h <;> rename_i hl <;> obtain ⟨rfl,rfl⟩ := Prod.mk.inj (Option.some.inj h)
      · exact .refused _
      · exact .checked hl
  | remove r =>
    obtain ⟨rfl,rfl⟩ | ⟨rfl,rfl⟩ := World.read_cases h
    · exact .lost _
    · exact .found
  | removing r rows =>
    obtain ⟨rfl,rfl⟩ | ⟨pg,hpg,rfl,rfl⟩ := World.query_cases h
    · exact .abort _
    · exact .removed hpg
  | broadcast r deleted =>
    obtain ⟨rfl,rfl⟩ := Prod.mk.inj (Option.some.inj h)
    exact .told
  | done action => simp [RemoveReaction.step] at h
  | failed err => simp [RemoveReaction.step] at h

/-! ### `deleteMessage` -/

namespace DeleteMessage

/-- Control states of the transaction. -/
def inTransaction : DeleteMessage → Bool
  | .wipe _ _ | .sweep _ _ | .sweeping _ _ _ | .lock _ _ | .previous _ _ | .lastMessage _ _ _
  | .commit _ _ => true
  | _ => false

inductive Edge (p : ℕ) (w : World) : DeleteMessage → DeleteMessage → World → Prop
  | refused {u i} (err) : Edge p w (.select u i) (.failed err) w
  | again {u i m} (hm : w.pg.db.message? (.ofText i) = some m) (hd : m.isDeleted = true) :
      Edge p w (.select u i) (.emit i m.channelId) w
  | selected {u i m} (hm : w.pg.db.message? (.ofText i) = some m) :
      Edge p w (.select u i) (.wipe i m.channelId) w
  | abort {q} (h : q.inTransaction = true) (err) : Edge p w q (.rollback err) w
  | wiped {i c pg} (h : wipeRow w.pg p (.ofText i) = some pg) :
      Edge p w (.wipe i c) (.sweep i c) { w with pg := pg }
  | found {i c} : Edge p w (.sweep i c)
      (.sweeping i c ((w.pg.view p).reactions.filter fun r => r.messageId = .ofText i)) w
  | swept {i c rows pg} (h : w.pg.statement p (rowLocks rows) [.deleteReactions rows] = some pg) :
      Edge p w (.sweeping i c rows) (.lock i c) { w with pg := pg }
  | last {i c pg} (h : lockChannel w.pg p c = some pg) :
      Edge p w (.lock i c) (.previous i c) { w with pg := pg }
  | other {i c pg} (h : lockChannel w.pg p c = some pg) :
      Edge p w (.lock i c) (.commit i c) { w with pg := pg }
  | before {i c} (prev) : Edge p w (.previous i c) (.lastMessage i c prev) w
  | pointed {i c prev pg} (h : w.pg.statement p [(.row (.channel c),.noKeyUpdate)]
      [.write (.setLastMessage c (prev.map (·.id)) (prev.map (·.createdAt)))] = some pg) :
      Edge p w (.lastMessage i c prev) (.commit i c) { w with pg := pg }
  | committed {i c} : Edge p w (.commit i c) (.emit i c) { w with pg := w.pg.commit p }
  | rolledBack {err} : Edge p w (.rollback err) (.failed (.database err)) { w with pg := w.pg.rollback p }
  | told {i c} : Edge p w (.emit i c) (.done i c) (w.emit [deleted i c])

theorem edge {q q' : DeleteMessage} (h : q.step p ch w = some (q',w')) : Edge p w q q' w' := by
  cases q with
  | select u i =>
    simp only [step] at h
    split at h
    · obtain ⟨rfl,rfl⟩ := Prod.mk.inj (Option.some.inj h)
      exact .refused _
    · split at h
      · obtain ⟨rfl,rfl⟩ := Prod.mk.inj (Option.some.inj h)
        exact .refused _
      · rename_i hm
        split_ifs at h with hs hd <;> obtain ⟨rfl,rfl⟩ := Prod.mk.inj (Option.some.inj h)
        · exact .refused _
        · exact .again hm hd
        · exact .selected hm
  | wipe i c =>
    obtain ⟨rfl,rfl⟩ | ⟨pg,hpg,rfl,rfl⟩ := World.query_cases h
    · exact .abort rfl _
    · exact .wiped hpg
  | sweep i c =>
    obtain ⟨rfl,rfl⟩ | ⟨rfl,rfl⟩ := World.read_cases h
    · exact .abort rfl _
    · exact .found
  | sweeping i c rows =>
    obtain ⟨rfl,rfl⟩ | ⟨pg,hpg,rfl,rfl⟩ := World.query_cases h
    · exact .abort rfl _
    · exact .swept hpg
  | lock i c =>
    obtain ⟨rfl,rfl⟩ | ⟨pg,hpg,rfl,rfl⟩ := World.query_cases h
    · exact .abort rfl _
    · split
      · exact .last hpg
      · exact .other hpg
  | previous i c =>
    obtain ⟨rfl,rfl⟩ | ⟨rfl,rfl⟩ := World.read_cases h
    · exact .abort rfl _
    · exact .before _
  | lastMessage i c prev =>
    obtain ⟨rfl,rfl⟩ | ⟨pg,hpg,rfl,rfl⟩ := World.query_cases h
    · exact .abort rfl _
    · exact .pointed hpg
  | commit i c =>
    obtain ⟨rfl,rfl⟩ | ⟨rfl,rfl⟩ := World.read_cases h
    · exact .abort rfl _
    · exact .committed
  | rollback err =>
    obtain ⟨rfl,rfl⟩ := Prod.mk.inj (Option.some.inj h)
    exact .rolledBack
  | emit i c =>
    obtain ⟨rfl,rfl⟩ := Prod.mk.inj (Option.some.inj h)
    exact .told
  | done i c => simp [step] at h
  | failed err => simp [step] at h

end DeleteMessage

end ZevraServer.Reactions
