import ZevraServer.SenderKeys

/-!
# Replacing sender keys

Two uploads of one owner, group and epoch that are open at once replace each other
only if the unique index sees it: with a receiver in common the later insertion
finds the row of the first commit and fails. Without one both commit, and the
members are left with keys of two uploads.
-/

namespace ZevraServer.SenderKeys

open ReadCommitted Interleaving

variable {p : ℕ} {pg pg' : Postgres} {ch : Choice} {w w' w₀ : World} {u v : Upload}
  {rows : List SenderKeyRow} {c d : Config World UploadSenderKeys} {q q' s : UploadSenderKeys}

/-! ### The insertion -/

theorem Upload.mem_rows {x : SenderKeyRow} (h : x ∈ u.rows p) :
    x.xmin = some p ∧ x.triple = u.triple ∧ x.receiverId ∈ u.receivers := by
  obtain ⟨i,hi,rfl⟩ := List.mem_map.mp h
  exact ⟨rfl,rfl,List.mem_map.mpr ⟨_,List.mem_map.mpr ⟨i,hi,rfl⟩,rfl⟩⟩

theorem Upload.exists_row {i : Uuid} (h : i ∈ u.receivers) (p : ℕ) : ∃ x ∈ u.rows p, x.receiverId = i := by
  obtain ⟨s,hs,rfl⟩ := List.mem_map.mp h
  obtain ⟨i,hi,rfl⟩ := List.mem_map.mp hs
  exact ⟨_,List.mem_map.mpr ⟨i,hi,rfl⟩,rfl⟩

theorem Upload.content_rows (u : Upload) (p : ℕ) : (u.rows p).map SenderKeyRow.content = u.content := by
  rw [rows,List.map_map]
  rfl

theorem Upload.receivers_rows (u : Upload) (p : ℕ) : (u.rows p).map (·.receiverId) = u.receivers := by
  rw [rows,List.map_map,receivers,receiverIds,List.map_map]
  rfl

/-- No row of the table has the key of a row that may be inserted. -/
theorem clear_of_violation {db : Db} (h : violation db rows = none) :
    ∀ r ∈ rows, ∀ s ∈ db.senderKeys, ¬(s.triple = r.triple ∧ s.receiverId = r.receiverId) := by
  induction rows generalizing db with
  | nil => simp
  | cons r rs ih =>
    cases hr : rowViolation db r with
    | some err => simp [violation,hr] at h
    | none =>
      simp only [violation,hr] at h
      intro r' hr' s hs
      rcases List.mem_cons.mp hr' with rfl | hr'
      · intro hk
        have hex : ∃ s ∈ db.senderKeys, s.triple = r'.triple ∧ s.receiverId = r'.receiverId := ⟨s,hs,hk⟩
        simp [rowViolation,hex] at hr
      · exact ih h r' hr' s (List.mem_append_left _ hs)

/-- Rows of one triple that may be inserted have distinct receivers. -/
theorem nodup_of_violation {db : Db} {t : Triple} (h : violation db rows = none)
    (ht : ∀ r ∈ rows, r.triple = t) : (rows.map (·.receiverId)).Nodup := by
  induction rows generalizing db with
  | nil => simp
  | cons r rs ih =>
    cases hr : rowViolation db r with
    | some err => simp [violation,hr] at h
    | none =>
      simp only [violation,hr] at h
      rw [List.map_cons,List.nodup_cons]
      refine ⟨fun hin => ?_,ih h fun r' hr' => ht r' (List.mem_cons_of_mem _ hr')⟩
      obtain ⟨r',hr',he⟩ := List.mem_map.mp hin
      refine clear_of_violation h r' hr' r (List.mem_append_right _ List.mem_cons_self) ⟨?_,he.symm⟩
      rw [ht r List.mem_cons_self,ht r' (List.mem_cons_of_mem _ hr')]

theorem insertRows_eq (h : insertRows pg p rows = some (.ok pg')) :
    violation (pg.view p) rows = none ∧ pg.statement p (insertLocks rows) [.insert rows] = some pg' := by
  unfold insertRows at h
  split at h
  · cases hv : violation (pg.view p) rows with
    | some err => simp [hv] at h
    | none =>
      simp only [hv,Option.map_eq_some_iff,Except.ok.injEq] at h
      obtain ⟨_,hst,rfl⟩ := h
      exact ⟨rfl,hst⟩
  · simp at h

/-! ### The control flow -/

/-- Control states of the transaction. -/
def UploadSenderKeys.inTransaction : UploadSenderKeys → Bool
  | .remove _ | .removing _ _ | .insert _ | .commit _ => true
  | _ => false

inductive UploadSenderKeys.Edge (p : ℕ) (w : World) : UploadSenderKeys → UploadSenderKeys → World → Prop
  | refused {u : Upload} (err) : Edge p w (.select u) (.failed err) w
  | checked {u : Upload} : Edge p w (.select u) (.remove u) w
  | abort {q : UploadSenderKeys} (h : q.inTransaction = true) (err) : Edge p w q (.rollback err) w
  | found {u : Upload} : Edge p w (.remove u)
      (.removing u ((w.pg.view p).senderKeys.filter fun r => r.triple = u.triple)) w
  | removed {u : Upload} {rows : List SenderKeyRow} {pg : Postgres}
      (h : w.pg.statement p (rowLocks rows) [.delete rows] = some pg) :
      Edge p w (.removing u rows) (.insert u) { w with pg := pg }
  | inserted {u : Upload} {pg : Postgres} (h : insertRows w.pg p (u.rows p) = some (.ok pg)) :
      Edge p w (.insert u) (.commit u) { w with pg := pg }
  | committed {u : Upload} : Edge p w (.commit u) .done ⟨w.pg.commit p,w.committed++[u]⟩
  | rolledBack {err : DbError} : Edge p w (.rollback err) (.failed (.database err))
      { w with pg := w.pg.rollback p }

theorem UploadSenderKeys.edge (h : q.step p ch w = some (q',w')) : UploadSenderKeys.Edge p w q q' w' := by
  cases q with
  | select u =>
    simp only [UploadSenderKeys.step] at h
    split at h
    · obtain ⟨rfl,rfl⟩ := Prod.mk.inj (Option.some.inj h)
      exact .refused _
    · split at h
      · obtain ⟨rfl,rfl⟩ := Prod.mk.inj (Option.some.inj h)
        exact .refused _
      · split at h <;> obtain ⟨rfl,rfl⟩ := Prod.mk.inj (Option.some.inj h)
        · exact .refused _
        · exact .checked
  | remove u =>
    simp only [UploadSenderKeys.step] at h
    split at h
    · obtain ⟨rfl,rfl⟩ := Prod.mk.inj (Option.some.inj h)
      exact .abort rfl _
    · split at h <;> obtain ⟨rfl,rfl⟩ := Prod.mk.inj (Option.some.inj h)
      · exact .abort rfl _
      · exact .found
  | removing u rows =>
    simp only [UploadSenderKeys.step] at h
    split at h
    · obtain ⟨rfl,rfl⟩ := Prod.mk.inj (Option.some.inj h)
      exact .abort rfl _
    · obtain ⟨pg,hpg,he⟩ := Option.map_eq_some_iff.mp h
      obtain ⟨rfl,rfl⟩ := Prod.mk.inj he
      exact .removed hpg
  | insert u =>
    simp only [UploadSenderKeys.step] at h
    split at h
    · obtain ⟨rfl,rfl⟩ := Prod.mk.inj (Option.some.inj h)
      exact .abort rfl _
    · split at h
      · simp at h
      · obtain ⟨rfl,rfl⟩ := Prod.mk.inj (Option.some.inj h)
        exact .abort rfl _
      · rename_i hi
        obtain ⟨rfl,rfl⟩ := Prod.mk.inj (Option.some.inj h)
        exact .inserted hi
  | commit u =>
    simp only [UploadSenderKeys.step] at h
    split at h <;> obtain ⟨rfl,rfl⟩ := Prod.mk.inj (Option.some.inj h)
    · exact .abort rfl _
    · exact .committed
  | rollback err =>
    obtain ⟨rfl,rfl⟩ := Prod.mk.inj (Option.some.inj h)
    exact .rolledBack
  | done => simp [UploadSenderKeys.step] at h
  | failed err => simp [UploadSenderKeys.step] at h

/-! ### What an upload knows -/

/-- The rows found by a deletion, and what has come since: nothing, or a row that is in the
way of the insertion. -/
structure Upload.Seen (u : Upload) (pool : List UploadSenderKeys) (db : Db) (rows : List SenderKeyRow) :
    Prop where
  found : ∀ x ∈ rows, x.triple = u.triple
  old : ∀ x ∈ rows, ∀ r, x.xmin = some r → pool[r]? = some .done
  rest : (∀ x ∈ db.senderKeys, x.triple = u.triple → x ∈ rows) ∨
    ∃ x ∈ db.senderKeys, x.triple = u.triple ∧ x ∉ rows ∧ x.receiverId ∈ u.receivers

/-- The insertion has succeeded. -/
structure Upload.Inserted (u : Upload) (p : ℕ) (pg : Postgres) (rows : List SenderKeyRow) : Prop where
  pending : pg.pending p = [.delete rows,.insert (u.rows p)]
  found : ∀ x ∈ rows, x.triple = u.triple
  all : ∀ x ∈ pg.db.senderKeys, x.triple = u.triple → x ∈ rows
  keys : ∀ i ∈ u.receivers, pg.Holds p (.key u.triple i) .update
  nodup : u.receivers.Nodup

def UploadSenderKeys.Knows (pool : List UploadSenderKeys) (p : ℕ) (pg : Postgres) : UploadSenderKeys → Prop
  | .removing u rows => pg.pending p = [] ∧ u.Seen pool pg.db rows
  | .insert u => ∃ rows, pg.pending p = [.delete rows] ∧ u.Seen pool pg.db rows
  | .commit u => ∃ rows, u.Inserted p pg rows
  | .rollback _ => True
  | _ => pg.pending p = []

/-- What holds in every configuration of a run whose deletions begin in turn. -/
structure Sorted (w₀ : World) (c : Config World UploadSenderKeys) : Prop where
  replaced : Replaced w₀ c.world
  sound : c.world.pg.Sound
  knows : ∀ p (q : UploadSenderKeys), c.pool[p]? = some q → q.Knows c.pool p c.world.pg
  meets : ∀ (p r : ℕ) (q s : UploadSenderKeys) (u v : Upload), c.pool[p]? = some q → c.pool[r]? = some s →
    r ≠ p → q.open? = some u → s.open? = some v → v.triple = u.triple → v.Meets u
  old : ∀ x ∈ c.world.pg.db.senderKeys, ∀ r, x.xmin = some r → c.pool[r]? = some .done
  idle : ∀ p, c.pool.length ≤ p → c.world.pg.pending p = []

/-- Uploads that have returned stay so. -/
def Stay (pool pool' : List UploadSenderKeys) : Prop :=
  ∀ r : ℕ, pool[r]? = some UploadSenderKeys.done → pool'[r]? = some UploadSenderKeys.done

theorem Stay.set {pool : List UploadSenderKeys} (hq : pool[p]? = some q) (hne : q ≠ .done) :
    Stay pool (pool.set p q') := by
  intro r h
  have hrp : r ≠ p := by
    rintro rfl
    exact hne (Option.some.inj (hq.symm.trans h))
  rwa [List.getElem?_set_ne (Ne.symm hrp)]

theorem Stay.append (pool : List UploadSenderKeys) (q : UploadSenderKeys) : Stay pool (pool++[q]) := by
  intro r h
  rwa [List.getElem?_append_left (List.getElem?_eq_some_iff.mp h).1]

theorem Upload.Seen.pool {pool pool' : List UploadSenderKeys} {db : Db} (h : u.Seen pool db rows)
    (hp : Stay pool pool') : u.Seen pool' db rows :=
  ⟨h.found,fun x hx r hr => hp r (h.old x hx r hr),h.rest⟩

/-- A step of another call that commits nothing. -/
theorem UploadSenderKeys.Knows.beside {pool pool' : List UploadSenderKeys} {r : ℕ} (h : s.Knows pool r pg)
    (hp : Stay pool pool') (hr : (Discipline.free Db Lockable).Rely r pg pg') (hdb : pg'.db = pg.db) : s.Knows pool' r pg' := by
  cases s with
  | removing u rows => exact ⟨hr.pending.trans h.1,hdb ▸ h.2.pool hp⟩
  | insert u =>
    obtain ⟨rows,hpend,hseen⟩ := h
    exact ⟨rows,hr.pending.trans hpend,hdb ▸ hseen.pool hp⟩
  | commit u =>
    obtain ⟨rows,hi⟩ := h
    exact ⟨rows,hr.pending.trans hi.pending,hi.found,hdb ▸ hi.all,fun i hi' => (hr.locks _ _).mpr (hi.keys i hi'),
      hi.nodup⟩
  | rollback err => trivial
  | _ => exact hr.pending.trans h

/-! ### A commit -/

theorem view_inserted (h : u.Inserted p pg rows) :
    (pg.view p).senderKeys = pg.db.senderKeys.filter (· ∉ rows)++u.rows p := by
  simp [Pg.view,h.pending,Writable.apply,Db.apply]

/-- The triple has the rows of the upload now. -/
theorem rowsOf_inserted (h : u.Inserted p pg rows) : rowsOf (pg.view p) u.triple = u.rows p := by
  have hold : (pg.db.senderKeys.filter (· ∉ rows)).filter (fun r => decide (r.triple = u.triple)) = [] := by
    refine List.filter_eq_nil_iff.mpr fun x hx => ?_
    obtain ⟨hin,hout⟩ := List.mem_filter.mp hx
    intro ht
    simp [h.all x hin (of_decide_eq_true ht)] at hout
  rw [rowsOf,view_inserted h,List.filter_append,hold,List.nil_append]
  exact List.filter_eq_self.mpr fun x hx => decide_eq_true (u.mem_rows hx).2.1

/-- The other triples keep theirs. -/
theorem rowsOf_beside (h : u.Inserted p pg rows) {t : Triple} (ht : t ≠ u.triple) :
    rowsOf (pg.view p) t = rowsOf pg.db t := by
  have hnew : (u.rows p).filter (fun r => decide (r.triple = t)) = [] := by
    refine List.filter_eq_nil_iff.mpr fun x hx => ?_
    have := (u.mem_rows hx).2.1
    simpa [this] using Ne.symm ht
  rw [rowsOf,view_inserted h,List.filter_append,hnew,List.append_nil,List.filter_filter]
  refine List.filter_congr fun x _ => ?_
  by_cases hx : x.triple = t
  · have hnot : x ∉ rows := fun hin => ht (hx.symm.trans (h.found x hin))
    simp [hx,hnot]
  · simp [hx]

theorem latest_append (us : List Upload) (u : Upload) (t : Triple) :
    latest (us++[u]) t = if u.triple = t then some u else latest us t := by
  unfold latest
  rw [List.filter_append,List.filter_cons,List.filter_nil]
  by_cases h : u.triple = t <;> simp [h]

theorem Replaced.commit (hr : Replaced w₀ w) (h : u.Inserted p w.pg rows) :
    Replaced w₀ ⟨w.pg.commit p,w.committed++[u]⟩ := by
  intro t
  simp only [latest_append,Pg.commit_db]
  by_cases ht : u.triple = t
  · subst ht
    refine ⟨fun v hv => ?_,by simp⟩
    obtain rfl : u = v := by simpa using hv
    refine ⟨?_,h.nodup⟩
    rw [rowsOf_inserted h]
    exact u.content_rows p
  · rw [if_neg ht]
    refine ⟨fun v hv => ?_,fun hnone => ?_⟩
    · have hvt : v.triple = t := by
        have := List.mem_of_getLast? hv
        simpa using (List.mem_filter.mp this).2
      obtain ⟨hcontent,hnodup⟩ := (hr t).1 v hv
      refine ⟨?_,hnodup⟩
      rw [rowsOf_beside h (by rw [hvt]; exact Ne.symm ht)]
      exact hcontent
    · rw [rowsOf_beside h (Ne.symm ht)]
      exact (hr t).2 hnone

/-- An open upload of the same triple has not inserted, and now finds the new row in its way. -/
theorem UploadSenderKeys.Knows.commit {pool pool' : List UploadSenderKeys} {r : ℕ} (h : s.Knows pool r pg)
    (hi : u.Inserted p pg rows) (hs : pg.Sound) (hq : pool[p]? = some (.commit u)) (hp : Stay pool pool')
    (hne : r ≠ p) (hmeet : ∀ v ∈ s.open?, v.triple = u.triple → v.Meets u) : s.Knows pool' r (pg.commit p) := by
  have hr : (Discipline.free Db Lockable).Rely r pg (pg.commit p) := Discipline.Guarantee.commit_free hs r hne
  have hseen : ∀ {v : Upload} {rows' : List SenderKeyRow}, v ∈ s.open? → v.Seen pool pg.db rows' →
      v.Seen pool' (pg.view p) rows' := by
    intro v rows' hv hseen
    refine ⟨hseen.found,fun x hx r hxr => hp r (hseen.old x hx r hxr),?_⟩
    by_cases ht : v.triple = u.triple
    · obtain ⟨i,hiv,hiu⟩ := hmeet v hv ht
      obtain ⟨x,hx,rfl⟩ := u.exists_row hiu p
      obtain ⟨hxmin,hxt,_⟩ := u.mem_rows hx
      refine .inr ⟨x,?_,hxt.trans ht.symm,fun hold => ?_,hiv⟩
      · rw [view_inserted hi]
        exact List.mem_append_right _ hx
      · have := hseen.old x hold p hxmin
        rw [hq] at this
        simp at this
    · have hsame : ∀ x, x.triple = v.triple → (x ∈ (pg.view p).senderKeys ↔ x ∈ pg.db.senderKeys) := by
        intro x hx
        have := congrArg (x ∈ ·) (rowsOf_beside hi ht)
        simpa [rowsOf,hx] using this
      rcases hseen.rest with hall | ⟨x,hx,hxt,hout,hrec⟩
      · exact .inl fun x hx hxt => hall x ((hsame x hxt).mp hx) hxt
      · exact .inr ⟨x,(hsame x hxt).mpr hx,hxt,hout,hrec⟩
  cases s with
  | removing v rows' => exact ⟨hr.pending.trans h.1,hseen rfl h.2⟩
  | insert v =>
    obtain ⟨rows',hpend,hs'⟩ := h
    exact ⟨rows',hr.pending.trans hpend,hseen rfl hs'⟩
  | commit v =>
    obtain ⟨rows',hv⟩ := h
    have ht : v.triple ≠ u.triple := by
      intro ht
      obtain ⟨i,hiv,hiu⟩ := hmeet v rfl ht
      have hkey := hv.keys i hiv
      rw [ht] at hkey
      exact hne (hs.exclusive (hi.keys i hiu) hkey)
    refine ⟨rows',hr.pending.trans hv.pending,hv.found,fun x hx hxt => hv.all x ?_ hxt,
      fun i hi' => (hr.locks _ _).mpr (hv.keys i hi'),hv.nodup⟩
    have hx : x ∈ (pg.view p).senderKeys := hx
    have := congrArg (x ∈ ·) (rowsOf_beside hi ht)
    simp only [rowsOf,List.mem_filter,hxt,decide_true,and_true,eq_iff_iff] at this
    exact this.mp hx
  | rollback err => trivial
  | _ => exact hr.pending.trans h

theorem UploadSenderKeys.Starts.knows {pool : List UploadSenderKeys} (h : q.Starts) (hp : pg.pending p = []) :
    q.Knows pool p pg := by
  cases h
  exact hp

theorem Sorted.spawn (h : Sorted w₀ c) (hq : q.Starts) : Sorted w₀ ⟨c.world,c.pool++[q]⟩ where
  replaced := h.replaced
  sound := h.sound
  knows p s hs := by
    rcases pool_append hs with ⟨_,hs⟩ | ⟨hp,rfl⟩
    · exact (h.knows p s hs).beside (.append _ _) (.refl p _) rfl
    · exact hq.knows (h.idle p hp)
  meets p r s t u v hs ht hne hu hv := by
    rcases pool_append hs with ⟨_,hs⟩ | ⟨_,rfl⟩
    · rcases pool_append ht with ⟨_,ht⟩ | ⟨_,rfl⟩
      · exact h.meets p r s t u v hs ht hne hu hv
      · cases hq
        simp [UploadSenderKeys.open?] at hv
    · cases hq
      simp [UploadSenderKeys.open?] at hu
  old x hx r hr := Stay.append _ _ r (h.old x hx r hr)
  idle p hp := h.idle p (by simp only [List.length_append] at hp; omega)

/-- A step that commits nothing. -/
theorem Sorted.still {pg' : Postgres} (h : Sorted w₀ c) (hq : c.pool[p]? = some q) (hne : q ≠ .done)
    (hdb : pg'.db = c.world.pg.db) (hsound : pg'.Sound)
    (hrely : (Discipline.free Db Lockable).Guarantee p c.world.pg pg')
    (hknows : q'.Knows (c.pool.set p q') p pg')
    (hopen : ∀ u ∈ q'.open?, u ∈ q.open? ∨ ∀ s ∈ c.pool, ∀ v ∈ s.open?, v.triple = u.triple → v.Meets u) :
    Sorted w₀ ⟨{ c.world with pg := pg' },c.pool.set p q'⟩ where
  replaced := by
    intro t
    have ht := h.replaced t
    simp only [hdb]
    exact ht
  sound := hsound
  knows r s hr := by
    rcases pool_set hr with ⟨rfl,rfl⟩ | ⟨hrp,hr⟩
    · exact hknows
    · exact (h.knows r s hr).beside (.set hq hne) (hrely r hrp) hdb
  meets r t s s' u v hs hs' htr hu hv ht := by
    rcases pool_set hs with ⟨rfl,rfl⟩ | ⟨hrp,hr⟩
    · rcases pool_set hs' with ⟨rfl,rfl⟩ | ⟨htp,hr'⟩
      · exact absurd rfl htr
      · rcases hopen u hu with hu | hall
        · exact h.meets r t q s' u v hq hr' htr hu hv ht
        · exact hall s' (List.mem_of_getElem? hr') v hv ht
    · rcases pool_set hs' with ⟨rfl,rfl⟩ | ⟨htp,hr'⟩
      · rcases hopen v hv with hv | hall
        · exact h.meets r t s q u v hr hq htr hu hv ht
        · exact (hall s (List.mem_of_getElem? hr) u hu ht.symm).symm
      · exact h.meets r t s s' u v hr hr' htr hu hv ht
  old x hx r hr := by
    have hx : x ∈ pg'.db.senderKeys := hx
    rw [hdb] at hx
    exact Stay.set hq hne r (h.old x hx r hr)
  idle r hr := by
    simp only [List.length_set] at hr
    have hlt : p < c.pool.length := (List.getElem?_eq_some_iff.mp hq).1
    exact (hrely r (by omega)).pending.trans (h.idle r hr)

/-- The commit of an upload. -/
theorem Sorted.commit (h : Sorted w₀ c) (hq : c.pool[p]? = some (.commit u)) :
    Sorted w₀ ⟨⟨c.world.pg.commit p,c.world.committed++[u]⟩,c.pool.set p .done⟩ := by
  obtain ⟨rows,hi⟩ := h.knows p _ hq
  have hlt : p < c.pool.length := (List.getElem?_eq_some_iff.mp hq).1
  have hstay : Stay c.pool (c.pool.set p .done) := .set hq (by simp)
  have hrely : (Discipline.free Db Lockable).Guarantee p c.world.pg (c.world.pg.commit p) := .commit_free h.sound
  refine ⟨h.replaced.commit hi,h.sound.release _ _ p,fun r s hr => ?_,fun r t s s' u v hs hs' htr hu hv ht => ?_,
    fun x hx r hr => ?_,fun r hr => ?_⟩
  · rcases pool_set hr with ⟨rfl,rfl⟩ | ⟨hrp,hr⟩
    · exact (Pg.Idle.commit c.world.pg r).pending
    · exact (h.knows r s hr).commit hi h.sound hq hstay hrp fun v hv ht =>
        h.meets p r _ s u v hq hr hrp rfl hv ht
  · rcases pool_set hs with ⟨rfl,rfl⟩ | ⟨_,hs⟩
    · simp [UploadSenderKeys.open?] at hu
    · rcases pool_set hs' with ⟨rfl,rfl⟩ | ⟨_,hs'⟩
      · simp [UploadSenderKeys.open?] at hv
      · exact h.meets r t s s' u v hs hs' htr hu hv ht
  · have hx : x ∈ (c.world.pg.view p).senderKeys := hx
    rw [view_inserted hi] at hx
    rcases List.mem_append.mp hx with hx | hx
    · exact hstay r (h.old x (List.mem_of_mem_filter hx) r hr)
    · obtain rfl : p = r := Option.some.inj ((u.mem_rows hx).1.symm.trans hr)
      exact List.getElem?_set_self hlt
  · simp only [List.length_set] at hr
    exact (hrely r (by omega)).pending.trans (h.idle r hr)

/-- The insertion of an upload whose deletion is behind it. -/
theorem Upload.Seen.insert {pool : List UploadSenderKeys} (h : u.Seen pool pg.db rows)
    (hp : pg.pending p = [.delete rows]) (hi : insertRows pg p (u.rows p) = some (.ok pg')) :
    u.Inserted p pg' rows := by
  obtain ⟨hv,hst⟩ := insertRows_eq hi
  obtain ⟨hdb,hpend,hnew,_⟩ := Pg.statement_spec hst
  have hview : (pg.view p).senderKeys = pg.db.senderKeys.filter (· ∉ rows) := by
    simp [Pg.view,hp,Writable.apply,Db.apply]
  refine ⟨by rw [hpend,hp]; rfl,h.found,?_,fun i hi => ?_,?_⟩
  · rw [hdb]
    rcases h.rest with hall | ⟨x,hx,hxt,hout,hrec⟩
    · exact hall
    · obtain ⟨y,hy,hyr⟩ := u.exists_row hrec p
      have hin : x ∈ (pg.view p).senderKeys := by
        rw [hview]
        exact List.mem_filter.mpr ⟨hx,by simpa using hout⟩
      exact absurd ⟨hxt.trans (u.mem_rows hy).2.1.symm,hyr.symm⟩ (clear_of_violation hv y hy x hin)
  · obtain ⟨y,hy,rfl⟩ := u.exists_row hi p
    refine hnew _ _ (List.mem_flatMap.mpr ⟨y,hy,?_⟩)
    simp [(u.mem_rows hy).2.1]
  · rw [← u.receivers_rows p]
    exact nodup_of_violation hv fun r hr => (u.mem_rows hr).2.1

theorem Sorted.run (h : Sorted w₀ c) (hq : c.pool[p]? = some q) (hturn : q.InTurn c)
    (hs : q.step p ch c.world = some (q',w')) : Sorted w₀ ⟨w',c.pool.set p q'⟩ := by
  have hknows := h.knows p q hq
  have hsame : ∀ {r : UploadSenderKeys}, q ≠ .done → r.Knows (c.pool.set p r) p c.world.pg →
      (∀ u ∈ r.open?, u ∈ q.open? ∨ ∀ s ∈ c.pool, ∀ v ∈ s.open?, v.triple = u.triple → v.Meets u) →
        Sorted w₀ ⟨c.world,c.pool.set p r⟩ :=
    fun hne hk ho => h.still hq hne rfl h.sound (.refl p _) hk ho
  cases UploadSenderKeys.edge hs with
  | refused err => exact hsame (by simp) hknows (by simp [UploadSenderKeys.open?])
  | checked => exact hsame (by simp) hknows (by simp [UploadSenderKeys.open?])
  | abort hin err =>
    refine hsame ?_ trivial (by simp [UploadSenderKeys.open?])
    rintro rfl
    simp [UploadSenderKeys.inTransaction] at hin
  | @found u =>
    have hpend : c.world.pg.pending p = [] := hknows
    have hview : c.world.pg.view p = c.world.pg.db := by simp [Pg.view,hpend]
    rw [hview]
    refine hsame (by simp) ⟨hpend,fun x hx => ?_,fun x hx r hr => ?_,.inl fun x hx ht => ?_⟩ fun v hv => ?_
    · simpa using (List.mem_filter.mp hx).2
    · exact Stay.set hq (by simp) r (h.old x (List.mem_of_mem_filter hx) r hr)
    · exact List.mem_filter.mpr ⟨hx,decide_eq_true ht⟩
    · obtain rfl : u = v := by simpa [UploadSenderKeys.open?] using hv
      exact .inr hturn
  | @removed u rows pg hst =>
    obtain ⟨hpend,hseen⟩ := hknows
    obtain ⟨hdb,hpend',_,_⟩ := Pg.statement_spec hst
    have hk : (UploadSenderKeys.insert u).Knows (c.pool.set p (.insert u)) p pg := by
      refine ⟨rows,by rw [hpend',hpend]; rfl,?_⟩
      rw [hdb]
      exact hseen.pool (.set hq (by simp))
    exact h.still hq (by simp) hdb (h.sound.statement hst) (.statement hst) hk fun v hv => .inl hv
  | inserted hi =>
    obtain ⟨rows,hpend,hseen⟩ := hknows
    obtain ⟨_,hst⟩ := insertRows_eq hi
    exact h.still hq (by simp) (Pg.statement_spec hst).1 (h.sound.statement hst) (.statement hst)
      ⟨rows,hseen.insert hpend hi⟩ fun v hv => .inl hv
  | committed => exact h.commit hq
  | rolledBack =>
    exact h.still hq (by simp) rfl (h.sound.release _ _ p) (.rollback p _) (Pg.Idle.rollback c.world.pg p).pending
      (by simp [UploadSenderKeys.open?])

/-- What a step does to the table: nothing, or a commit that leaves the other triples alone. -/
theorem UploadSenderKeys.step_changes (hs : q.step p ch w = some (q',w')) :
    w'.pg.db = w.pg.db ∧ w'.committed = w.committed ∨
      ∃ u, q = .commit u ∧ q' = .done ∧ w' = ⟨w.pg.commit p,w.committed++[u]⟩ := by
  cases UploadSenderKeys.edge hs with
  | removed hst => exact .inl ⟨(Pg.statement_spec hst).1,rfl⟩
  | inserted hi => exact .inl ⟨(Pg.statement_spec (insertRows_eq hi).2).1,rfl⟩
  | committed => exact .inr ⟨_,rfl,rfl,rfl⟩
  | _ => exact .inl ⟨rfl,rfl⟩

/-- From an initial table let uploads run whose deletions all begin in turn. Every triple then
has exactly the items of the upload that committed last, one for each receiver; only a commit
changes the table, and only at the triple of its upload. -/
theorem uploads_replace (w₀ : World) (hidle : ∀ p, w₀.pg.Idle p) (hnone : w₀.committed = [])
    (hold : ∀ x ∈ w₀.pg.db.senderKeys, x.xmin = none) {c : Config World UploadSenderKeys}
    (hrun : Run system Orderly ⟨w₀,[]⟩ c) :
    Replaced w₀ c.world ∧ ∀ p ch d, system.next c (.run p ch) = some d →
      d.world.pg.db = c.world.pg.db ∧ d.world.committed = c.world.committed ∨
        ∃ u, c.pool[p]? = some (.commit u) ∧ d.pool[p]? = some .done ∧
          d.world.committed = c.world.committed++[u] ∧
            ∀ t, t ≠ u.triple → rowsOf d.world.pg.db t = rowsOf c.world.pg.db t := by
  have hsound : w₀.pg.Sound := by
    intro k hk
    exact absurd rfl ((hidle k.owner).locks k hk)
  have hstart : Sorted w₀ ⟨w₀,[]⟩ :=
    ⟨fun t => ⟨by simp [hnone,latest],fun _ => rfl⟩,hsound,by simp,by simp,
      fun x hx r hr => by simp [hold x hx] at hr,fun p _ => (hidle p).pending⟩
  have hsorted : Sorted w₀ c := by
    refine hrun.invariant hstart ?_
    intro a l b _ ha hl hn
    cases l with
    | spawn q =>
      simp only [System.next,Option.some.injEq] at hn
      subst hn
      exact ha.spawn hl
    | run p ch =>
      obtain ⟨q,q',w,hq,hs,rfl⟩ := system.next_run hn
      exact ha.run hq (hl q hq) hs
    | env e => exact e.elim
  refine ⟨hsorted.replaced,fun p ch d hn => ?_⟩
  obtain ⟨q,q',w,hq,hs,rfl⟩ := system.next_run hn
  rcases UploadSenderKeys.step_changes hs with h | ⟨u,rfl,rfl,rfl⟩
  · exact .inl h
  · obtain ⟨rows,hi⟩ := hsorted.knows p _ hq
    exact .inr ⟨u,hq,List.getElem?_set_self (List.getElem?_eq_some_iff.mp hq).1,rfl,
      fun t ht => rowsOf_beside hi ht⟩

/-! A user uploads keys for one group from two devices. -/

instance (c : Config World UploadSenderKeys) (q : UploadSenderKeys) : Decidable (q.InTurn c) := by
  cases q <;> unfold UploadSenderKeys.InTurn <;> infer_instance

instance (u : Upload) (db : Db) : Decidable (u.Installed db) := by
  unfold Upload.Installed
  infer_instance

def starting : UploadSenderKeys → Bool
  | .select _ => true
  | _ => false

theorem starting_sound (q : UploadSenderKeys) (h : starting q = true) : q.Starts := by
  cases q with
  | select u => exact .select u
  | _ => simp [starting] at h

def orderly (c : Config World UploadSenderKeys) : Label UploadSenderKeys Choice Empty → Bool
  | .spawn q => starting q
  | .run p _ => c.pool[p]?.all fun q => q.InTurn c
  | .env _ => true

theorem orderly_sound (c : Config World UploadSenderKeys) (l : Label UploadSenderKeys Choice Empty)
    (h : orderly c l = true) : Orderly c l := by
  cases l with
  | spawn q => exact starting_sound q h
  | run p ch =>
    intro q hq
    simpa [orderly,hq] using h
  | env e => trivial

/-- Uploads arrive at their first statement, and nothing else is asked of the run. -/
def Arriving (_ : Config World UploadSenderKeys) : Label UploadSenderKeys Choice Empty → Prop
  | .spawn q => q.Starts
  | .run _ _ => True
  | .env _ => True

def arriving (_ : Config World UploadSenderKeys) : Label UploadSenderKeys Choice Empty → Bool
  | .spawn q => starting q
  | .run _ _ => true
  | .env _ => true

theorem arriving_sound (c : Config World UploadSenderKeys) (l : Label UploadSenderKeys Choice Empty)
    (h : arriving c l = true) : Arriving c l := by
  cases l with
  | spawn q => exact starting_sound q h
  | run p ch => trivial
  | env e => trivial

def choirGroup : RawId := Uuid.text 9

def start : World :=
  ⟨⟨⟨[1,2,3],[⟨1,9,none⟩,⟨2,9,none⟩,⟨3,9,none⟩],[]⟩,fun _ => [],[]⟩,[]⟩

theorem start_idle (p : ℕ) : start.pg.Idle p := ⟨rfl,by simp [start]⟩

def forBob : Upload := ⟨1,choirGroup,4,[⟨Uuid.text 2,"kb","sb"⟩],by simp⟩

def forCid : Upload := ⟨1,choirGroup,4,[⟨Uuid.text 3,"kc","sc"⟩],by simp⟩

def forBoth : Upload := ⟨1,choirGroup,4,[⟨Uuid.text 3,"lc","tc"⟩,⟨Uuid.text 2,"lb","tb"⟩],by simp⟩

def plain : Choice := ⟨false,false,false,[],0,0⟩

/-- Both uploads have deleted when the first commits; the second finds bob's key taken. -/
def contended : List (Label UploadSenderKeys Choice Empty) :=
  [.spawn (.select forBob),.spawn (.select forBoth)]++List.replicate 4 (.run 0 plain)++
    List.replicate 3 (.run 1 plain)++[.run 0 plain,.run 1 plain,.run 1 plain]

theorem uploads_replace_contended : ∃ c, Run system Orderly ⟨start,[]⟩ c ∧
    c.pool = [.done,.failed (.database (uniqueViolation "idx_sender_keys_group_owner_receiver_epoch"))] ∧
      forBob.Installed c.world.pg.db := by
  obtain ⟨c,hc,hf⟩ := Run.exists_of_exec (S := system) (c := ⟨start,[]⟩) orderly_sound contended
    (f := fun c => (c.pool,latest c.world.committed forBob.triple))
    (v := ([.done,.failed (.database (uniqueViolation "idx_sender_keys_group_owner_receiver_epoch"))],
      some forBob)) (by decide +kernel)
  obtain ⟨hpool,hlatest⟩ := Prod.mk.inj hf
  exact ⟨c,hc,hpool,((uploads_replace start start_idle rfl (by simp [start]) hc).1 _).1 _ hlatest⟩

/-- Both uploads take their snapshots before either commits, and share no receiver. -/
def crossed : List (Label UploadSenderKeys Choice Empty) :=
  [.spawn (.select forBob),.spawn (.select forCid)]++List.replicate 4 (.run 0 plain)++
    List.replicate 4 (.run 1 plain)++[.run 0 plain,.run 1 plain]

/-- Both succeed, and the table has keys of both. -/
theorem uploads_mix : ∃ c, Run system Arriving ⟨start,[]⟩ c ∧ c.pool = [.done,.done] ∧
    (rowsOf c.world.pg.db forCid.triple).map SenderKeyRow.content = forBob.content++forCid.content ∧
      ¬ Replaced start c.world := by
  obtain ⟨c,hc,hf⟩ := Run.exists_of_exec (S := system) (c := ⟨start,[]⟩) arriving_sound crossed
    (f := fun c => (c.pool,decide ((rowsOf c.world.pg.db forCid.triple).map SenderKeyRow.content =
      forBob.content++forCid.content),latest c.world.committed forCid.triple,
        decide (forCid.Installed c.world.pg.db)))
    (v := ([.done,.done],true,some forCid,false)) (by decide +kernel)
  simp only [Prod.mk.injEq] at hf
  obtain ⟨hpool,hrows,hlatest,hnot⟩ := hf
  exact ⟨c,hc,hpool,of_decide_eq_true hrows,fun h => of_decide_eq_false hnot ((h forCid.triple).1 _ hlatest)⟩

end ZevraServer.SenderKeys
