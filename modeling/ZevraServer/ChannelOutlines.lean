import ZevraServer.Transactions

/-!
# The transactions of `create`, `addMember` and `removeMember`

`create` of a direct channel searches and inserts under the advisory lock of its
pair. `addMember` inserts in a statement of its own, into a channel it has seen to be
a group. `removeMember` deletes, looks for an admin and promotes under the lock of
the channel row.
-/

namespace ZevraServer

open ReadCommitted

variable {x : Externals} {p : ℕ} {T : Db → Db → Prop} {pg pg' : Postgres} {ch : Choice} {w w' : World}

/-! ### `create` -/

theorem checkParticipants_valid {input : CreateInput} {a : CreateArgs}
    (h : checkParticipants input = .ok a) : a.Valid := by
  simp only [checkParticipants] at h
  split at h
  · simp at h
  · rename_i others hcheck
    obtain rfl := Except.ok.inj h
    obtain ⟨_,rfl,hone⟩ := of_checkParticipantIds hcheck
    refine ⟨List.nodup_cons.mpr ⟨by simp,?_⟩,fun _ => hone rfl⟩
    exact (nodup_uniqueIds input.participantIds).filter _
  · rename_i others hcheck
    obtain rfl := Except.ok.inj h
    obtain ⟨_,rfl,_⟩ := of_checkParticipantIds hcheck
    refine ⟨List.nodup_cons.mpr ⟨by simp,?_⟩,by simp⟩
    exact (nodup_uniqueIds input.participantIds).filter _

namespace Create

/-- A direct channel is created under the lock of its pair, and the pair has none. -/
def PairFree (x : Externals) (pg : Postgres) (p : ℕ) (a : CreateArgs) : Prop :=
  a.type = .direct → pg.Holds p (.advisory (x.dmLockKey a.pair.1 a.pair.2)) .update ∧
    ∀ d, ¬ pg.db.Direct a.pair.1 a.pair.2 d

/-- The new channel's id is claimed. -/
structure Claimed (pg : Postgres) (p : ℕ) (a : CreateArgs) (channel : ChannelRow) : Prop where
  row : channel = a.channelRow channel.id
  claim : pg.Holds p (.channelId channel.id) .update
  fresh : ¬ pg.db.HasChannel channel.id

/-- The assertion of `create` at each of its control states. -/
def Assert (x : Externals) (p : ℕ) (pg : Postgres) : Create → Prop
  | .find _ => pg.Idle p
  | .begin a => pg.Idle p ∧ a.Valid
  | .lockPair a => pg.Idle p ∧ a.Valid ∧ a.type = .direct
  | .existing a => pg.pending p = [] ∧ a.Valid ∧ a.type = .direct ∧
      pg.Holds p (.advisory (x.dmLockKey a.pair.1 a.pair.2)) .update
  | .summary _ c => pg.pending p = [] ∧ pg.db.Typed c .direct
  | .insertChannel a => pg.pending p = [] ∧ a.Valid ∧ PairFree x pg p a
  | .insertMemberships a channel => pg.pending p = [.insertChannel channel] ∧ a.Valid ∧
      PairFree x pg p a ∧ Claimed pg p a channel
  | .commit _ none _ => False
  | .commit _ (some channel) false => pg.pending p = [] ∧ channel.type = .direct
  | .commit a (some channel) true => a.Valid ∧ PairFree x pg p a ∧ Claimed pg p a channel ∧
      pg.Holds p (.channel channel.id) .keyShare ∧ ∃ ids, pg.pending p =
        .insertChannel channel::(a.membershipRows channel.id ids).map .insertMembership
  | .rollback _ => True
  | .store _ _ => pg.Idle p
  | .join _ channel created => pg.Idle p ∧ (created = false → channel.type = .direct)
  | .emit _ _ => pg.Idle p
  | .client _ channel created => pg.Idle p ∧ (created = false → channel.type = .direct)
  | .done _ channel created => pg.Idle p ∧ (created = false → channel.type = .direct)
  | .failed _ => pg.Idle p

/-- The change of the tables a control state commits. -/
def Commits : Create → Db → Db → Prop
  | .commit a (some channel) true, d, e => ∃ ids, Created a channel.id ids d e
  | _, _, _ => False

theorem PairFree.stable {a : CreateArgs} (h : PairFree x pg p a) (hv : a.Valid)
    (hr : (discipline x).Rely p pg pg') : PairFree x pg' p a := by
  intro ht
  obtain ⟨hl,hnone⟩ := h ht
  refine ⟨(hr.locks _ _).mpr hl,fun d hd => hnone d ?_⟩
  exact hr.keeps _ hl _ _ (hv.pair ht).1 rfl d hd

theorem Claimed.stable {a : CreateArgs} {channel : ChannelRow} (h : Claimed pg p a channel)
    (hr : (discipline x).Rely p pg pg') : Claimed pg' p a channel :=
  ⟨h.row,(hr.locks _ _).mpr h.claim,hr.keeps _ h.claim h.fresh⟩

/-- Other calls do not disturb the assertion. -/
theorem Assert.stable {q : Create} (h : q.Assert x p pg) (hr : (discipline x).Rely p pg pg') :
    q.Assert x p pg' := by
  cases q with
  | find input => exact hr.idle h
  | begin a => exact ⟨hr.idle h.1,h.2⟩
  | lockPair a => exact ⟨hr.idle h.1,h.2⟩
  | existing a => exact ⟨hr.pending.trans h.1,h.2.1,h.2.2.1,(hr.locks _ _).mpr h.2.2.2⟩
  | summary a c => exact ⟨hr.pending.trans h.1,hr.grows.typed h.2⟩
  | insertChannel a => exact ⟨hr.pending.trans h.1,h.2.1,h.2.2.stable h.2.1 hr⟩
  | insertMemberships a channel =>
    exact ⟨hr.pending.trans h.1,h.2.1,h.2.2.1.stable h.2.1 hr,h.2.2.2.stable hr⟩
  | commit a channel created =>
    rcases channel with _ | channel
    · exact h
    · cases created with
      | false => exact ⟨hr.pending.trans h.1,h.2⟩
      | true =>
        obtain ⟨hv,hp,hc,hk,ids,hw⟩ := h
        exact ⟨hv,hp.stable hv hr,hc.stable hr,(hr.locks _ _).mpr hk,ids,hr.pending.trans hw⟩
  | rollback err => trivial
  | store a channel => exact hr.idle h
  | join a channel created => exact ⟨hr.idle h.1,h.2⟩
  | emit a channel => exact hr.idle h
  | client a channel created => exact ⟨hr.idle h.1,h.2⟩
  | done a channel created => exact ⟨hr.idle h.1,h.2⟩
  | failed err => exact hr.idle h

theorem applyAll_insertMembership (ms : List MembershipRow) (db : Db) :
    applyAll (ms.map Write.insertMembership) db = { db with memberships := db.memberships++ms } := by
  induction ms generalizing db with
  | nil => simp
  | cons m ms ih =>
    simp only [List.map_cons,applyAll_cons,ih,Writable.apply,Db.apply,List.append_assoc,
      List.singleton_append]

theorem clearRead_rows (a : CreateArgs) (c : Uuid) (ids : List Uuid) :
    (a.membershipRows c ids).map (·.clearRead) = a.membershipRows c ids := by
  simp only [CreateArgs.membershipRows,List.map_cons]
  congr 1
  apply List.ext_getElem <;> simp [newMembership,MembershipRow.clearRead]

/-- The committed transaction is the atomic `Created`. -/
theorem created_of_commit {a : CreateArgs} {channel : ChannelRow} {ids : List Uuid} (hv : a.Valid)
    (hp : PairFree x pg p a) (hc : Claimed pg p a channel)
    (hw : pg.pending p = .insertChannel channel::(a.membershipRows channel.id ids).map .insertMembership) :
    Created a channel.id ids pg.db (pg.view p) := by
  rw [Pg.view,hw,applyAll_cons,applyAll_insertMembership]
  refine ⟨hv,hc.fresh,fun ht => (hp ht).2,rfl,?_,?_⟩
  · change pg.db.channels++[channel] = _
    rw [← hc.row]
  · change (pg.db.memberships++a.membershipRows channel.id ids).map (·.clearRead) = _
    rw [List.map_append,clearRead_rows]
    rfl

theorem own_statement {next : Create} {r : Option (Except DbError Postgres)} {q : Create}
    (h : statement w next r = some (q,w')) :
    (∃ err, q = .rollback err ∧ w' = w) ∨ ∃ pg, r = some (.ok pg) ∧ q = next ∧ w' = { w with pg := pg } := by
  unfold statement at h
  split at h
  · simp at h
  · rename_i err
    simp only [Option.some.injEq,Prod.mk.injEq] at h
    exact .inl ⟨err,h.1.symm,h.2.symm⟩
  · rename_i pg
    simp only [Option.some.injEq,Prod.mk.injEq] at h
    exact .inr ⟨pg,rfl,h.1.symm,h.2.symm⟩

theorem own_abort {err : DbError} {q : Create} (hs : Sane w.pg)
    (hq : some (Create.rollback err,w) = some (q,w')) :
    Advance x p T w.pg w'.pg ∧ q.Assert x p w'.pg := by
  obtain ⟨rfl,rfl⟩ := Prod.mk.inj (Option.some.inj hq)
  exact ⟨.refl hs,trivial⟩

theorem PairFree.of_locks {a : CreateArgs} (h : PairFree x pg p a) (hdb : pg'.db = pg.db)
    (hold : ∀ q l m, pg.Holds q l m → pg'.Holds q l m) : PairFree x pg' p a := by
  intro ht
  rw [hdb]
  exact ⟨hold _ _ _ (h ht).1,(h ht).2⟩

theorem own_existing {a : CreateArgs} {q : Create} (hs : Sane w.pg)
    (h : (Create.existing a).Assert x p w.pg) (hq : (Create.existing a).step x p ch w = some (q,w')) :
    Advance x p T w.pg w'.pg ∧ q.Assert x p w'.pg := by
  obtain ⟨hp,hv,ht,hl⟩ := h
  have hview : w.pg.view p = w.pg.db := by simp [Pg.view,hp]
  have hne := (hv.pair ht).1.ne
  simp only [step,hview] at hq
  split at hq
  · exact own_abort hs hq
  · split at hq
    · rename_i c hpick
      obtain ⟨rfl,rfl⟩ := Prod.mk.inj (Option.some.inj hq)
      have hd := (Db.mem_directChannels hs.integrity hne).mp (Db.pick_mem hpick)
      exact ⟨.refl hs,hp,hd.1⟩
    · rename_i hpick
      obtain ⟨rfl,rfl⟩ := Prod.mk.inj (Option.some.inj hq)
      refine ⟨.refl hs,hp,hv,fun _ => ⟨hl,fun d hd => ?_⟩⟩
      have hmem := (Db.mem_directChannels hs.integrity hne).mpr hd
      rw [Db.pick_eq_none hpick] at hmem
      simp at hmem

theorem own_insertChannel {a : CreateArgs} {q : Create} (hs : Sane w.pg)
    (h : (Create.insertChannel a).Assert x p w.pg)
    (hq : (Create.insertChannel a).step x p ch w = some (q,w')) :
    Advance x p T w.pg w'.pg ∧ q.Assert x p w'.pg := by
  obtain ⟨hp,hv,hpair⟩ := h
  have hview : w.pg.view p = w.pg.db := by simp [Pg.view,hp]
  simp only [step] at hq
  split at hq
  · exact own_abort hs hq
  · rcases own_statement hq with ⟨err,rfl,rfl⟩ | ⟨pg',hr,rfl,rfl⟩
    · exact ⟨.refl hs,trivial⟩
    · unfold insertChannelRow at hr
      split at hr
      · split at hr
        · simp at hr
        · rename_i hfresh
          obtain ⟨pg'',hst,he⟩ := Option.map_eq_some_iff.mp hr
          obtain rfl := Except.ok.inj he
          obtain ⟨hdb,hpend,hnew,hold⟩ := Pg.statement_spec hst
          refine ⟨.statement hs hst,by rw [hpend,hp]; rfl,hv,hpair.of_locks hdb hold,rfl,hnew _ _ (by simp),?_⟩
          rw [hdb]
          rw [hview] at hfresh
          exact hfresh
      · simp at hr

theorem own_insertMemberships {a : CreateArgs} {channel : ChannelRow} {q : Create} (hs : Sane w.pg)
    (h : (Create.insertMemberships a channel).Assert x p w.pg)
    (hq : (Create.insertMemberships a channel).step x p ch w = some (q,w')) :
    Advance x p T w.pg w'.pg ∧ q.Assert x p w'.pg := by
  obtain ⟨hp,hv,hpair,hc⟩ := h
  simp only [step] at hq
  split at hq
  · exact own_abort hs hq
  · rcases own_statement hq with ⟨err,rfl,rfl⟩ | ⟨pg',hr,rfl,rfl⟩
    · exact ⟨.refl hs,trivial⟩
    · unfold ZevraServer.insertMemberships at hr
      split at hr
      · split at hr
        · simp at hr
        · obtain ⟨pg'',hst,he⟩ := Option.map_eq_some_iff.mp hr
          obtain rfl := Except.ok.inj he
          obtain ⟨hdb,hpend,hnew,hold⟩ := Pg.statement_spec hst
          refine ⟨.statement hs hst,hv,hpair.of_locks hdb hold,⟨hc.row,hold _ _ _ hc.claim,hdb ▸ hc.fresh⟩,
            hnew _ _ ?_,ch.ids,by rw [hpend,hp]; rfl⟩
          simp [CreateArgs.membershipRows,membershipLocks,newMembership]
      · simp at hr

theorem own_commit {a : CreateArgs} {channel : Option ChannelRow} {created : Bool} {q : Create}
    (hs : Sane w.pg) (h : (Create.commit a channel created).Assert x p w.pg)
    (hq : (Create.commit a channel created).step x p ch w = some (q,w')) :
    Advance x p (Create.commit a channel created).Commits w.pg w'.pg ∧ q.Assert x p w'.pg := by
  simp only [step] at hq
  split at hq
  · exact own_abort hs hq
  · rcases channel with _ | channel
    · exact h.elim
    · obtain ⟨rfl,rfl⟩ := Prod.mk.inj (Option.some.inj hq)
      cases created with
      | false => exact ⟨.commit_nothing hs h.1,.commit _ _,fun _ => h.2⟩
      | true =>
        obtain ⟨hv,hp,hc,hk,ids,hw⟩ := h
        have hcr := created_of_commit hv hp hc hw
        refine ⟨.commit hs ⟨ids,hcr⟩ (.created a channel.id ids hcr) fun l => ?_,.commit _ _⟩
        rcases hcr.keeps x hs.integrity l with hl | rfl | rfl | ⟨ht,rfl⟩
        · exact .inl hl
        · exact .inr ⟨_,hk⟩
        · exact .inr ⟨_,hc.claim⟩
        · exact .inr ⟨_,(hp ht).1⟩

/-- Every step of `create` keeps its assertion and respects the locks of the others. -/
theorem own {q q' : Create} (hs : Sane w.pg) (h : q.Assert x p w.pg)
    (hq : q.step x p ch w = some (q',w')) : Advance x p q.Commits w.pg w'.pg ∧ q'.Assert x p w'.pg := by
  cases q with
  | find input =>
    simp only [step] at hq
    split at hq
    · obtain ⟨rfl,rfl⟩ := Prod.mk.inj (Option.some.inj hq)
      exact ⟨.refl hs,h⟩
    · rename_i a ha
      split_ifs at hq <;> obtain ⟨rfl,rfl⟩ := Prod.mk.inj (Option.some.inj hq)
      · exact ⟨.refl hs,h⟩
      · exact ⟨.refl hs,h⟩
      · exact ⟨.refl hs,h,checkParticipants_valid ha⟩
  | begin a =>
    obtain ⟨rfl,rfl⟩ := Prod.mk.inj (Option.some.inj hq)
    refine ⟨.refl hs,?_⟩
    have hv : ({ a with startedAt := ch.now } : CreateArgs).Valid := ⟨h.2.nodup,h.2.one⟩
    simp only
    split
    · rename_i ht
      exact ⟨h.1,hv,ht⟩
    · rename_i ht
      exact ⟨h.1.pending,hv,fun hd => by simp [ht] at hd⟩
  | lockPair a =>
    simp only [step] at hq
    split at hq
    · exact own_abort hs hq
    · rcases own_statement hq with ⟨err,rfl,rfl⟩ | ⟨pg',hr,rfl,rfl⟩
      · exact ⟨.refl hs,trivial⟩
      · obtain ⟨pg'',hacq,he⟩ := Option.map_eq_some_iff.mp hr
        obtain rfl := Except.ok.inj he
        obtain ⟨_,hpend,hnew,_⟩ := Pg.acquire_spec hacq
        exact ⟨.acquire hs hacq,by rw [hpend]; exact h.1.pending,h.2.1,h.2.2,hnew _ _ (by simp)⟩
  | existing a => exact own_existing hs h hq
  | summary a c =>
    simp only [step] at hq
    split at hq
    · exact own_abort hs hq
    · obtain ⟨rfl,rfl⟩ := Prod.mk.inj (Option.some.inj hq)
      refine ⟨.refl hs,?_⟩
      obtain ⟨hp,r,hr,rfl,ht⟩ := h
      have hview : w.pg.view p = w.pg.db := by simp [Pg.view,hp]
      rw [hview,hs.integrity.channel?_of_mem hr]
      exact ⟨hp,ht⟩
  | insertChannel a => exact own_insertChannel hs h hq
  | insertMemberships a channel => exact own_insertMemberships hs h hq
  | commit a channel created => exact own_commit hs h hq
  | rollback err =>
    obtain ⟨rfl,rfl⟩ := Prod.mk.inj (Option.some.inj hq)
    exact ⟨.rollback hs,.rollback _ _⟩
  | store a channel =>
    obtain ⟨rfl,rfl⟩ := Prod.mk.inj (Option.some.inj hq)
    have hpg : (if ch.fail then w else { w with redis := w.redis.setMembers channel.id a.memberIds }).pg =
        w.pg := by
      split <;> rfl
    rw [hpg]
    exact ⟨.refl hs,h,by simp⟩
  | join a channel created =>
    obtain ⟨rfl,rfl⟩ := Prod.mk.inj (Option.some.inj hq)
    refine ⟨.refl hs,?_⟩
    cases created with
    | false => exact h
    | true => exact h.1
  | emit a channel =>
    obtain ⟨rfl,rfl⟩ := Prod.mk.inj (Option.some.inj hq)
    exact ⟨.refl hs,h,by simp⟩
  | client a channel created =>
    obtain ⟨rfl,rfl⟩ := Prod.mk.inj (Option.some.inj hq)
    cases a.socket with
    | none => exact ⟨.refl hs,h⟩
    | some s => exact ⟨.refl hs,h⟩
  | done a channel created => simp [step] at hq
  | failed err => simp [step] at hq

end Create

/-! ### `addMember` -/

theorem insertMembershipOrNothing_cases {m : MembershipRow} {r : Except DbError (Postgres × Bool)}
    (h : insertMembershipOrNothing pg p m = some r) :
    r = .ok (pg,false) ∨ (∃ err, r = .error err) ∨ ∃ pg', r = .ok (pg',true) ∧
      ¬ pg.db.HasMember m.userId m.channelId ∧
      pg.auto p (membershipLocks m) [.insertMembership m] = some pg' := by
  unfold insertMembershipOrNothing at h
  split_ifs at h with _ hrow hfree
  · exact .inl (Option.some.inj h).symm
  · split at h
    · rename_i err _
      exact .inr (.inl ⟨err,(Option.some.inj h).symm⟩)
    · obtain ⟨pg',hpg,rfl⟩ := Option.map_eq_some_iff.mp h
      exact .inr (.inr ⟨pg',rfl,by rwa [Db.hasMember_iff],hpg⟩)

theorem touchChannel_eq {c : Uuid} (h : touchChannel pg p c = some pg') : pg' = pg := by
  unfold touchChannel at h
  split at h
  · exact (Option.some.inj h).symm
  · exact (Pg.auto_eq h).2

namespace AddMember

/-- The assertion of `addMember` at each of its control states. -/
def Assert (p : ℕ) (pg : Postgres) : AddMember → Prop
  | .user a => pg.Idle p ∧ pg.db.Typed a.channelId .group
  | .count a => pg.Idle p ∧ pg.db.Typed a.channelId .group
  | .insert a => pg.Idle p ∧ pg.db.Typed a.channelId .group
  | _ => pg.Idle p

/-- The change of the tables a control state commits. -/
def Commits : AddMember → Db → Db → Prop
  | .insert a, d, e => ∃ id now,
      Added (newMembership id a.newUserId a.channelId (a.role.getD .member) now) d e
  | _, _, _ => False

theorem Assert.idle {q : AddMember} (h : q.Assert p pg) : pg.Idle p := by
  cases q <;> first | exact h.1 | exact h

/-- Other calls do not disturb the assertion. -/
theorem Assert.stable {q : AddMember} (h : q.Assert p pg) (hr : (discipline x).Rely p pg pg') :
    q.Assert p pg' := by
  cases q with
  | user a => exact ⟨hr.idle h.1,hr.grows.typed h.2⟩
  | count a => exact ⟨hr.idle h.1,hr.grows.typed h.2⟩
  | insert a => exact ⟨hr.idle h.1,hr.grows.typed h.2⟩
  | _ => exact hr.idle h

theorem query_eq {next q : AddMember} (h : query ch w next = some (q,w')) :
    w' = w ∧ (q = .failed (.database aborted) ∨ q = next) := by
  unfold query at h
  obtain ⟨rfl,rfl⟩ := Prod.mk.inj (Option.some.inj h)
  split <;> simp

/-- The inserted row is the atomic `Added`. -/
theorem added_of_auto {m : MembershipRow} (hm : m.clearRead = m) (ht : pg.db.Typed m.channelId .group)
    (hnew : ¬ pg.db.HasMember m.userId m.channelId) :
    Added m pg.db (applyAll [Write.insertMembership m] pg.db) := by
  refine ⟨ht,hnew,rfl,rfl,?_⟩
  change (pg.db.memberships++[m]).map (·.clearRead) = _
  rw [List.map_append,List.map_singleton,hm]
  rfl

theorem own_insert {a : AddArgs} {q : AddMember} (hs : Sane w.pg)
    (h : w.pg.Idle p ∧ w.pg.db.Typed a.channelId .group)
    (hq : (AddMember.insert a).step p ch w = some (q,w')) :
    Advance x p (AddMember.insert a).Commits w.pg w'.pg ∧ q.Assert p w'.pg := by
  simp only [step] at hq
  split at hq
  · obtain ⟨rfl,rfl⟩ := Prod.mk.inj (Option.some.inj hq)
    exact ⟨.refl hs,h.1⟩
  · split at hq
    · simp at hq
    · obtain ⟨rfl,rfl⟩ := Prod.mk.inj (Option.some.inj hq)
      exact ⟨.refl hs,h.1⟩
    · rename_i pg' inserted hins
      obtain ⟨rfl,rfl⟩ := Prod.mk.inj (Option.some.inj hq)
      rcases insertMembershipOrNothing_cases hins with he | ⟨err,he⟩ | ⟨pg'',he,hnew,hauto⟩
      · obtain ⟨rfl,rfl⟩ := Prod.mk.inj (Except.ok.inj he)
        exact ⟨.refl hs,h.1⟩
      · simp at he
      · obtain ⟨rfl,rfl⟩ := Prod.mk.inj (Except.ok.inj he)
        have hadd : Added _ w.pg.db _ := added_of_auto rfl h.2 hnew
        refine ⟨.auto hs hauto ⟨_,_,hadd⟩ (.added _ hadd) fun l => ?_,?_⟩
        · rcases hadd.keeps x hs.integrity l with hk | rfl
          · exact .inl hk
          · exact .inr ⟨.keyShare,by simp [membershipLocks]⟩
        · obtain ⟨_,rfl⟩ := Pg.auto_eq hauto
          exact ⟨h.1.pending,h.1.locks⟩

/-- Every step of `addMember` keeps its assertion and respects the locks of the others. -/
theorem own {q q' : AddMember} (hs : Sane w.pg) (h : q.Assert p w.pg)
    (hq : q.step p ch w = some (q',w')) : Advance x p q.Commits w.pg w'.pg ∧ q'.Assert p w'.pg := by
  cases q with
  | role a =>
    obtain ⟨rfl,rfl | rfl⟩ := query_eq hq
    · exact ⟨.refl hs,h⟩
    · split <;> exact ⟨.refl hs,h⟩
  | channel a =>
    obtain ⟨rfl,rfl | rfl⟩ := query_eq hq
    · exact ⟨.refl hs,h⟩
    · refine ⟨.refl hs,?_⟩
      split
      · exact h
      · rename_i c hc
        split
        · exact h
        · rename_i ht
          obtain ⟨hmem,hid⟩ := Db.of_channel? hc
          exact ⟨h,c,hmem,hid,not_not.mp ht⟩
  | user a =>
    obtain ⟨rfl,rfl | rfl⟩ := query_eq hq
    · exact ⟨.refl hs,h.1⟩
    · refine ⟨.refl hs,?_⟩
      split
      · exact h.1
      · exact h
  | count a =>
    obtain ⟨rfl,rfl | rfl⟩ := query_eq hq
    · exact ⟨.refl hs,h.1⟩
    · refine ⟨.refl hs,?_⟩
      split
      · exact h.1
      · exact h
  | insert a => exact own_insert hs h hq
  | touch a =>
    simp only [step] at hq
    split at hq
    · obtain ⟨rfl,rfl⟩ := Prod.mk.inj (Option.some.inj hq)
      exact ⟨.refl hs,h⟩
    · obtain ⟨pg',htouch,he⟩ := Option.map_eq_some_iff.mp hq
      obtain ⟨rfl,rfl⟩ := Prod.mk.inj he
      obtain rfl := touchChannel_eq htouch
      exact ⟨.refl hs,h⟩
  | invalidate a =>
    obtain ⟨rfl,rfl⟩ := Prod.mk.inj (Option.some.inj hq)
    have hpg : (if ch.fail then w else { w with redis := w.redis.invalidate a.channelId }).pg = w.pg := by
      split <;> rfl
    rw [hpg]
    exact ⟨.refl hs,h⟩
  | join a =>
    obtain ⟨rfl,rfl⟩ := Prod.mk.inj (Option.some.inj hq)
    exact ⟨.refl hs,h⟩
  | emit a =>
    obtain ⟨rfl,rfl⟩ := Prod.mk.inj (Option.some.inj hq)
    exact ⟨.refl hs,h⟩
  | done a => simp [step] at hq
  | failed err => simp [step] at hq

end AddMember

/-! ### `removeMember` -/

namespace RemoveMember

/-- A channel with members has a longest-standing one. -/
theorem rows_nil {db : Db} {c : Uuid} (h : longestStanding db c = []) : db.membershipsOf c = [] := by
  by_contra hne
  obtain ⟨r,hr⟩ : ∃ r, r ∈ longestStanding db c :=
    Db.exists_first (fun a b => by simpa using Nat.le_total _ _) (fun a b c => by simpa using Nat.le_trans) hne
  rw [h] at hr
  simp at hr

/-- The rows of channel `c` once `u` is gone and `promoted` is an admin. -/
def left (db : Db) (u c : Uuid) (promoted : Option Uuid) : List MembershipRow :=
  ((db.roster c).filter fun r => r.userId ≠ u).map (promoteRow c promoted)

/-- An admin stays, if there was one and anybody stays. -/
def AdminLeft (db : Db) (u c : Uuid) (promoted : Option Uuid) : Prop :=
  (∃ r ∈ db.roster c, r.role = .admin) →
    left db u c promoted = [] ∨ ∃ r ∈ left db u c promoted, r.role = .admin

/-- The writes of the transaction. -/
def writes (a : RemoveArgs) (promoted : Option Uuid) : List Write :=
  .deleteMembership a.targetUserId a.channelId::
    (promoted.map fun id => Write.setRole id a.channelId .admin).toList

/-- The assertion of `removeMember` at each of its control states. -/
def Assert (p : ℕ) (pg : Postgres) : RemoveMember → Prop
  | .delete a => Open pg p a.channelId []
  | .admin a => Open pg p a.channelId (writes a none) ∧ pg.db.HasMember a.targetUserId a.channelId
  | .oldest a => Open pg p a.channelId (writes a none) ∧ pg.db.HasMember a.targetUserId a.channelId
  | .promote a r => Open pg p a.channelId (writes a none) ∧
      pg.db.HasMember a.targetUserId a.channelId ∧ r.channelId = a.channelId ∧
      ∃ s ∈ pg.db.roster a.channelId, s.userId ≠ a.targetUserId ∧ s.id = r.id
  | .touch a _ => ∃ o, Open pg p a.channelId (writes a o) ∧
      pg.db.HasMember a.targetUserId a.channelId ∧ AdminLeft pg.db a.targetUserId a.channelId o
  | .commit a _ => ∃ o, Open pg p a.channelId (writes a o) ∧
      pg.db.HasMember a.targetUserId a.channelId ∧ AdminLeft pg.db a.targetUserId a.channelId o
  | .rollback _ => True
  | _ => pg.Idle p

/-- The change of the tables a control state commits. -/
def Commits : RemoveMember → Db → Db → Prop
  | .commit a _, d, e => ∃ o, Removed a.targetUserId a.channelId o d e
  | _, _, _ => False

theorem adminLeft_of_roster {d e : Db} {u c : Uuid} {o : Option Uuid} (h : e.roster c = d.roster c) :
    AdminLeft e u c o ↔ AdminLeft d u c o := by
  simp only [AdminLeft,left,h]

theorem hasMember_of_roster {d e : Db} {u c : Uuid} (h : e.roster c = d.roster c) :
    e.HasMember u c ↔ d.HasMember u c := by
  simp only [Db.hasMember_iff_roster,h]

/-- Other calls do not disturb the assertion. -/
theorem Assert.stable {q : RemoveMember} (h : q.Assert p pg) (hr : (discipline x).Rely p pg pg') :
    q.Assert p pg' := by
  cases q with
  | delete a => exact Open.stable h hr
  | admin a => exact ⟨h.1.stable hr,(hasMember_of_roster (h.1.frozen hr).roster).mpr h.2⟩
  | oldest a => exact ⟨h.1.stable hr,(hasMember_of_roster (h.1.frozen hr).roster).mpr h.2⟩
  | promote a r =>
    have hros := (h.1.frozen hr).roster
    exact ⟨h.1.stable hr,(hasMember_of_roster hros).mpr h.2.1,h.2.2.1,by rw [hros]; exact h.2.2.2⟩
  | touch a promoted =>
    obtain ⟨o,ho,hm,hadm⟩ := h
    have hros := (ho.frozen hr).roster
    exact ⟨o,ho.stable hr,(hasMember_of_roster hros).mpr hm,(adminLeft_of_roster hros).mpr hadm⟩
  | commit a promoted =>
    obtain ⟨o,ho,hm,hadm⟩ := h
    have hros := (ho.frozen hr).roster
    exact ⟨o,ho.stable hr,(hasMember_of_roster hros).mpr hm,(adminLeft_of_roster hros).mpr hadm⟩
  | rollback err => trivial
  | role a => exact hr.idle h
  | lock a => exact hr.idle h
  | cleanup a o i r => exact hr.idle h
  | emit a o => exact hr.idle h
  | leave a o => exact hr.idle h
  | done a o => exact hr.idle h
  | failed err => exact hr.idle h

theorem members_writes (a : RemoveArgs) (o : Option Uuid) (db : Db) :
    (applyAll (writes a o) db).members =
      (db.members.filter fun r => ¬(r.userId = a.targetUserId ∧ r.channelId = a.channelId)).map
        (promoteRow a.channelId o) := by
  have hdel : (Db.apply (.deleteMembership a.targetUserId a.channelId) db).members =
      db.members.filter fun r => ¬(r.userId = a.targetUserId ∧ r.channelId = a.channelId) := by
    simp [Db.members,Db.apply,List.filter_map,Function.comp_def,MembershipRow.clearRead]
  cases o with
  | none =>
    rw [← hdel]
    exact (List.map_id' _).symm
  | some i =>
    rw [← hdel]
    simp only [writes,Option.map_some,Option.toList_some,applyAll_cons,applyAll_nil,Writable.apply]
    generalize Db.apply (.deleteMembership a.targetUserId a.channelId) db = e
    simp [Db.members,Db.apply,promoteRow,Function.comp_def,MembershipRow.clearRead_setRole]

theorem roster_writes (a : RemoveArgs) (o : Option Uuid) (db : Db) :
    (applyAll (writes a o) db).roster a.channelId = left db a.targetUserId a.channelId o := by
  simp only [Db.roster,members_writes,left,List.filter_map,Function.comp_def,promoteRow_channelId,
    List.filter_filter]
  congr 1
  refine List.filter_congr fun r _ => ?_
  by_cases hc : r.channelId = a.channelId <;> simp [hc]

/-- The committed transaction is the atomic `Removed`. -/
theorem removed_of_commit {a : RemoveArgs} {o : Option Uuid} (ho : Open pg p a.channelId (writes a o))
    (hm : pg.db.HasMember a.targetUserId a.channelId)
    (hadm : AdminLeft pg.db a.targetUserId a.channelId o) :
    Removed a.targetUserId a.channelId o pg.db (pg.view p) := by
  rw [ho.view]
  refine ⟨hm,?_,?_,members_writes a o pg.db,?_⟩
  · cases o <;> rfl
  · cases o <;> rfl
  · rw [roster_writes]
    exact hadm

theorem own_statement {next : RemoveMember} {r : Option Postgres} {q : RemoveMember}
    (h : statement w next r = some (q,w')) : ∃ pg, r = some pg ∧ q = next ∧ w' = { w with pg := pg } := by
  unfold statement at h
  split at h
  · simp at h
  · rename_i pg
    simp only [Option.some.injEq,Prod.mk.injEq] at h
    exact ⟨pg,rfl,h.1.symm,h.2.symm⟩

theorem own_abort {err : HttpError} {q : RemoveMember} (hs : Sane w.pg)
    (hq : some (RemoveMember.rollback err,w) = some (q,w')) :
    Advance x p T w.pg w'.pg ∧ q.Assert p w'.pg := by
  obtain ⟨rfl,rfl⟩ := Prod.mk.inj (Option.some.inj hq)
  exact ⟨.refl hs,trivial⟩

/-- A member who was no admin does not take the last admin along. -/
theorem adminLeft_of_member {db : Db} (hi : Integrity db) {u c : Uuid} {r : MembershipRow}
    (hr : db.membership? u c = some r) (hrole : r.role ≠ .admin) : AdminLeft db u c none := by
  rintro ⟨s,hs,hadm⟩
  refine .inr ⟨s,List.mem_map.mpr ⟨s,List.mem_filter.mpr ⟨hs,?_⟩,rfl⟩,hadm⟩
  obtain ⟨hmem,hkey⟩ := Db.of_membership? hr
  have hr' : r.clearRead ∈ db.members := List.mem_map_of_mem hmem
  obtain ⟨hs,hsc⟩ := List.mem_filter.mp hs
  simp only [decide_eq_true_eq] at hsc ⊢
  intro hsu
  have heq : s = r.clearRead := by
    refine List.inj_on_of_nodup_map hi.memberKeys hs hr' ?_
    simp only [MembershipRow.clearRead,hkey.1,hkey.2,hsu,hsc]
  rw [heq] at hadm
  exact hrole hadm

theorem own_delete {a : RemoveArgs} {q : RemoveMember} (hs : Sane w.pg)
    (h : Open w.pg p a.channelId []) (hq : (RemoveMember.delete a).step p ch w = some (q,w')) :
    Advance x p T w.pg w'.pg ∧ q.Assert p w'.pg := by
  simp only [step] at hq
  split at hq
  · exact own_abort hs hq
  · split at hq
    · exact own_abort hs hq
    · rename_i r hr
      rw [h.view,applyAll_nil] at hr
      obtain ⟨pg',hst,rfl,rfl⟩ := own_statement hq
      have hdb := (Pg.statement_spec hst).1
      have hm : w.pg.db.HasMember a.targetUserId a.channelId := by
        rw [← Db.membership?_isSome,hr]
        rfl
      have ho : Open pg' p a.channelId (writes a none) := h.statement hst
      refine ⟨.statement hs hst,?_⟩
      split
      · exact ⟨ho,hdb ▸ hm⟩
      · rename_i hrole
        refine ⟨none,ho,hdb ▸ hm,?_⟩
        simp only [hdb]
        exact adminLeft_of_member hs.integrity hr hrole

theorem roster_view {a : RemoveArgs} (h : Open pg p a.channelId (writes a none)) :
    ((pg.view p).membershipsOf a.channelId).map (·.clearRead) =
      left pg.db a.targetUserId a.channelId none := by
  rw [← Db.roster_of_membershipsOf,h.view,roster_writes]

theorem own_admin {a : RemoveArgs} {q : RemoveMember} (hs : Sane w.pg)
    (h : (RemoveMember.admin a).Assert p w.pg)
    (hq : (RemoveMember.admin a).step p ch w = some (q,w')) :
    Advance x p T w.pg w'.pg ∧ q.Assert p w'.pg := by
  simp only [step] at hq
  split_ifs at hq with _ hadm
  · exact own_abort hs hq
  · obtain ⟨rfl,rfl⟩ := Prod.mk.inj (Option.some.inj hq)
    refine ⟨.refl hs,none,h.1,h.2,fun _ => .inr ?_⟩
    obtain ⟨r,hr,hrole⟩ := List.any_eq_true.mp hadm
    refine ⟨r.clearRead,?_,of_decide_eq_true hrole⟩
    rw [← roster_view h.1]
    exact List.mem_map_of_mem hr
  · obtain ⟨rfl,rfl⟩ := Prod.mk.inj (Option.some.inj hq)
    exact ⟨.refl hs,h⟩

theorem own_oldest {a : RemoveArgs} {q : RemoveMember} (hs : Sane w.pg)
    (h : (RemoveMember.oldest a).Assert p w.pg)
    (hq : (RemoveMember.oldest a).step p ch w = some (q,w')) :
    Advance x p T w.pg w'.pg ∧ q.Assert p w'.pg := by
  have hview := roster_view h.1
  simp only [step] at hq
  split_ifs at hq
  · exact own_abort hs hq
  · obtain ⟨rfl,rfl⟩ := Prod.mk.inj (Option.some.inj hq)
    refine ⟨.refl hs,?_⟩
    split
    · rename_i hpick
      refine ⟨none,h.1,h.2,fun _ => .inl ?_⟩
      rw [← hview,rows_nil (Db.pick_eq_none hpick)]
      rfl
    · rename_i r hpick
      have hr := List.mem_of_mem_filter (Db.pick_mem hpick)
      have hl : r.clearRead ∈ left w.pg.db a.targetUserId a.channelId none := by
        rw [← hview]
        exact List.mem_map_of_mem hr
      obtain ⟨s,hs',he⟩ := List.mem_map.mp hl
      obtain ⟨hsr,hsu⟩ := List.mem_filter.mp hs'
      have hse : s = r.clearRead := he
      refine ⟨h.1,h.2,?_,s,hsr,by simpa using hsu,by rw [hse]; rfl⟩
      have := (List.mem_filter.mp hr).2
      simpa using this

theorem own_promote {a : RemoveArgs} {r : MembershipRow} {q : RemoveMember} (hs : Sane w.pg)
    (h : (RemoveMember.promote a r).Assert p w.pg)
    (hq : (RemoveMember.promote a r).step p ch w = some (q,w')) :
    Advance x p T w.pg w'.pg ∧ q.Assert p w'.pg := by
  obtain ⟨ho,hm,hrc,s,hsr,hsu,hid⟩ := h
  simp only [step] at hq
  split_ifs at hq
  · exact own_abort hs hq
  · obtain ⟨pg',hst,rfl,rfl⟩ := own_statement hq
    have hdb := (Pg.statement_spec hst).1
    refine ⟨.statement hs hst,some r.id,?_,hdb ▸ hm,?_⟩
    · have := ho.statement hst
      rwa [hrc] at this
    · simp only [hdb]
      refine fun _ => .inr ⟨promoteRow a.channelId (some r.id) s,List.mem_map.mpr
        ⟨s,List.mem_filter.mpr ⟨hsr,by simpa using hsu⟩,rfl⟩,?_⟩
      have hsc : s.channelId = a.channelId := by simpa using (List.mem_filter.mp hsr).2
      simp [promoteRow,MembershipRow.setRole,hid,hsc]

theorem joinCleanup_assert {a : RemoveArgs} {o : Option Uuid} {i r : Bool} (h : pg.Idle p) :
    (joinCleanup a o i r).Assert p pg := by
  unfold joinCleanup
  split <;> exact h

/-- Every step of `removeMember` keeps its assertion and respects the locks of the
others. -/
theorem own {q q' : RemoveMember} (hs : Sane w.pg) (h : q.Assert p w.pg)
    (hq : q.step p ch w = some (q',w')) : Advance x p q.Commits w.pg w'.pg ∧ q'.Assert p w'.pg := by
  cases q with
  | role a =>
    simp only [step] at hq
    split_ifs at hq <;> obtain ⟨rfl,rfl⟩ := Prod.mk.inj (Option.some.inj hq) <;> exact ⟨.refl hs,h⟩
  | lock a =>
    simp only [step] at hq
    split_ifs at hq with _ hnone
    · exact own_abort hs hq
    · exact own_abort hs hq
    · obtain ⟨pg',hl,rfl,rfl⟩ := own_statement hq
      have hch : w.pg.db.HasChannel a.channelId := by
        rw [Db.channel?_eq_none] at hnone
        exact not_not.mp hnone
      obtain ⟨hacq,ho⟩ := Open.of_lockChannel (Pg.Idle.pending h) hch rfl hl
      exact ⟨.acquire hs hacq,ho⟩
  | delete a => exact own_delete hs h hq
  | admin a => exact own_admin hs h hq
  | oldest a => exact own_oldest hs h hq
  | promote a r => exact own_promote hs h hq
  | touch a promoted =>
    obtain ⟨o,ho,hm,hadm⟩ := h
    simp only [step] at hq
    split_ifs at hq
    · exact own_abort hs hq
    · obtain ⟨pg',hacq,rfl,rfl⟩ := own_statement hq
      have hdb := (Pg.acquire_spec hacq).1
      refine ⟨.acquire hs hacq,o,ho.acquire hacq,hdb ▸ hm,?_⟩
      simp only [hdb]
      exact hadm
  | commit a promoted =>
    obtain ⟨o,ho,hm,hadm⟩ := h
    simp only [step] at hq
    split_ifs at hq
    · exact own_abort hs hq
    · obtain ⟨rfl,rfl⟩ := Prod.mk.inj (Option.some.inj hq)
      have hrem := removed_of_commit ho hm hadm
      refine ⟨.commit hs ⟨o,hrem⟩ (.removed _ _ o hrem) fun l => ?_,.commit _ _⟩
      rcases hrem.keeps x l with hk | rfl
      · exact .inl hk
      · exact .inr ⟨_,ho.lock⟩
  | rollback err =>
    obtain ⟨rfl,rfl⟩ := Prod.mk.inj (Option.some.inj hq)
    exact ⟨.rollback hs,.rollback _ _⟩
  | cleanup a o i r =>
    simp only [step] at hq
    split_ifs at hq <;> obtain ⟨rfl,rfl⟩ := Prod.mk.inj (Option.some.inj hq) <;>
      exact ⟨.refl hs,joinCleanup_assert h⟩
  | emit a o =>
    obtain ⟨rfl,rfl⟩ := Prod.mk.inj (Option.some.inj hq)
    exact ⟨.refl hs,h⟩
  | leave a o =>
    obtain ⟨rfl,rfl⟩ := Prod.mk.inj (Option.some.inj hq)
    exact ⟨.refl hs,h⟩
  | done a o => simp [step] at hq
  | failed err => simp [step] at hq

end RemoveMember

end ZevraServer
