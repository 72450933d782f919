import ZevraServer.Transactions

/-!
# The transaction of `send`

The lock on the channel row is taken before the maximum is read and kept to the
commit, so the number read is still the next one when the row is committed, and the
insertion never meets the number taken.
-/

namespace ZevraServer

open ReadCommitted

/-- The unique violation on `(channelId, sequenceNumber)`. -/
def sequenceCollision : DbError := uniqueViolation "idx_messages_channel_seq"

theorem Db.le_maxSequence (db : Db) {m : MessageRow} (hm : m ∈ db.messages) :
    m.sequenceNumber ≤ db.maxSequence m.channelId := by
  have hmem : m.sequenceNumber ∈ (db.messagesOf m.channelId).map (·.sequenceNumber) :=
    List.mem_map_of_mem (by simp [Db.messagesOf,hm])
  unfold Db.maxSequence
  generalize (db.messagesOf m.channelId).map (·.sequenceNumber) = l at hmem
  have hmono : ∀ (l : List ℕ) (a : ℕ), a ≤ l.foldl max a := by
    intro l
    induction l with
    | nil => exact fun a => Nat.le_refl a
    | cons b l ih => exact fun a => (Nat.le_max_left a b).trans (ih (max a b))
  have hle : ∀ (l : List ℕ) (a n : ℕ), n ∈ l → n ≤ l.foldl max a := by
    intro l
    induction l with
    | nil => exact fun a n hn => by simp at hn
    | cons b l ih =>
      intro a n hn
      rcases List.mem_cons.mp hn with rfl | hn
      · exact (Nat.le_max_right a n).trans (hmono l _)
      · exact ih _ n hn
  exact hle l 0 _ hmem

/-- The next number of a channel is not taken, whatever else is wrong with the row. -/
theorem messageViolation_ne_collision {db : Db} {m : MessageRow}
    (hseq : m.sequenceNumber = db.maxSequence m.channelId+1) :
    messageViolation db m ≠ some sequenceCollision := by
  have hfree : ¬ ∃ r ∈ db.messages, r.channelId = m.channelId ∧ r.sequenceNumber = m.sequenceNumber := by
    rintro ⟨r,hr,hc,hs⟩
    have hle := db.le_maxSequence hr
    rw [hc] at hle
    omega
  unfold messageViolation
  rw [if_neg hfree]
  split_ifs <;> simp [sequenceCollision,uniqueViolation,foreignKeyViolation]

theorem fresh_of_messageViolation {db : Db} {m : MessageRow} (h : messageViolation db m = none) :
    ∀ r ∈ db.messages, r.id ≠ m.id := by
  unfold messageViolation at h
  split_ifs at h with _ hid
  intro r hr he
  exact hid ⟨r,hr,he⟩

theorem insertMessage_cases {pg : Postgres} {p : ℕ} {m : MessageRow} {r : Except DbError Postgres}
    (h : insertMessage pg p m = some r) :
    (∃ err, r = .error err ∧ messageViolation (pg.view p) m = some err) ∨
    ∃ pg', r = .ok pg' ∧ messageViolation (pg.view p) m = none ∧
      pg.statement p (messageLocks m) [.insertMessage m] = some pg' := by
  unfold insertMessage at h
  split at h
  · split at h
    · rename_i err herr
      exact .inl ⟨err,(Option.some.inj h).symm,herr⟩
    · rename_i hnone
      obtain ⟨pg',hpg,rfl⟩ := Option.map_eq_some_iff.mp h
      exact .inr ⟨pg',rfl,hnone,hpg⟩
  · simp at h

namespace Send

/-- The inserted row carries the next number of its channel and a claimed id. -/
structure Numbered (pg : Postgres) (p : ℕ) (a : SendAttempt) (msg : MessageRow) : Prop where
  row : msg = a.row msg.id (pg.db.maxSequence a.input.channelId+1)
  claim : pg.Holds p (.messageId msg.id) .update
  fresh : ∀ r ∈ pg.db.messages, r.id ≠ msg.id

/-- The writes of the transaction before the sender's watermark. -/
def writes (a : SendAttempt) (msg : MessageRow) : List Write :=
  [.insertMessage msg,.setLastMessage a.input.channelId (some msg.id) (some msg.createdAt)]

/-- The assertion of `send` at each of its control states. -/
def Assert (p : ℕ) (pg : Postgres) : Send → Prop
  | .check _ _ => pg.Idle p
  | .begin a => pg.Idle p ∧ pg.db.HasChannel a.input.channelId
  | .lock a => pg.Idle p ∧ pg.db.HasChannel a.input.channelId
  | .maxSeq a => Open pg p a.input.channelId []
  | .insert a seq => Open pg p a.input.channelId [] ∧ seq = pg.db.maxSequence a.input.channelId+1
  | .lastMessage a msg => Open pg p a.input.channelId [.insertMessage msg] ∧ Numbered pg p a msg
  | .lastRead a msg => Open pg p a.input.channelId (writes a msg) ∧ Numbered pg p a msg
  | .commit a msg => ∃ read, (∀ w ∈ read, ∃ i j, w = Write.setLastRead i j) ∧
      Open pg p a.input.channelId (writes a msg++read) ∧ Numbered pg p a msg
  | .rollback a err => pg.db.HasChannel a.input.channelId ∧ err ≠ sequenceCollision
  | .lookup m _ g _ => pg.Idle p ∧ Posted pg.db m ∧ ∀ err, g ≠ .failed err
  | .emit m _ _ _ => pg.Idle p ∧ Posted pg.db m
  | .cache m _ _ => pg.Idle p ∧ Posted pg.db m
  | .enqueue job => pg.Idle p ∧ Posted pg.db job.message
  | .deliver d => pg.Idle p ∧ Posted pg.db d.job.message
  | .done m => pg.Idle p ∧ Posted pg.db m
  | .failed err => pg.Idle p ∧ err ≠ .database sequenceCollision

/-- The change of the tables a control state commits. -/
def Commits : Send → Db → Db → Prop
  | .commit _ msg, d, e => Sent msg d e
  | _, _, _ => False

variable {x : Externals} {p : ℕ} {T : Db → Db → Prop} {pg pg' : Postgres}

theorem maxSequence_of_frozen {d e : Db} {c : Uuid} (h : Frozen c d e) : e.maxSequence c = d.maxSequence c := by
  simp only [Db.maxSequence,h.messages]

theorem Numbered.stable {a : SendAttempt} {msg : MessageRow} {ws : List Write}
    (h : Numbered pg p a msg) (ho : Open pg p a.input.channelId ws)
    (hr : (discipline x).Rely p pg pg') : Numbered pg' p a msg := by
  refine ⟨?_,(hr.locks _ _).mpr h.claim,hr.keeps _ h.claim h.fresh⟩
  rw [maxSequence_of_frozen (ho.frozen hr)]
  exact h.row

/-- Other calls do not disturb the assertion. -/
theorem Assert.stable {q : Send} (h : q.Assert p pg) (hr : (discipline x).Rely p pg pg') :
    q.Assert p pg' := by
  cases q with
  | check input e => exact hr.idle h
  | begin a => exact ⟨hr.idle h.1,hr.grows.hasChannel h.2⟩
  | lock a => exact ⟨hr.idle h.1,hr.grows.hasChannel h.2⟩
  | maxSeq a => exact Open.stable h hr
  | insert a seq =>
    exact ⟨h.1.stable hr,by rw [maxSequence_of_frozen (h.1.frozen hr)]; exact h.2⟩
  | lastMessage a msg => exact ⟨h.1.stable hr,h.2.stable h.1 hr⟩
  | lastRead a msg => exact ⟨h.1.stable hr,h.2.stable h.1 hr⟩
  | commit a msg =>
    obtain ⟨read,hread,ho,hn⟩ := h
    exact ⟨read,hread,ho.stable hr,hn.stable ho hr⟩
  | rollback a err => exact ⟨hr.grows.hasChannel h.1,h.2⟩
  | lookup m e g k => exact ⟨hr.idle h.1,h.2.1.grows hr.grows,h.2.2⟩
  | emit m e ms k => exact ⟨hr.idle h.1,h.2.grows hr.grows⟩
  | cache m ms k => exact ⟨hr.idle h.1,h.2.grows hr.grows⟩
  | enqueue job => exact ⟨hr.idle h.1,h.2.grows hr.grows⟩
  | deliver d => exact ⟨hr.idle h.1,h.2.grows hr.grows⟩
  | done m => exact ⟨hr.idle h.1,h.2.grows hr.grows⟩
  | failed err => exact ⟨hr.idle h.1,h.2⟩

theorem applyAll_setLastRead {read : List Write} (h : ∀ w ∈ read, ∃ i j, w = Write.setLastRead i j)
    (db : Db) : (applyAll read db).messages = db.messages ∧ (applyAll read db).channels = db.channels ∧
      (applyAll read db).members = db.members := by
  induction read generalizing db with
  | nil => exact ⟨rfl,rfl,rfl⟩
  | cons w read ih =>
    obtain ⟨i,j,rfl⟩ := h w (by simp)
    obtain ⟨hm,hc,hb⟩ := ih (fun w hw => h w (by simp [hw])) (Db.apply (.setLastRead i j) db)
    refine ⟨hm,hc,hb.trans ?_⟩
    simp [Db.members,Db.apply,Function.comp_def]

/-- The committed transaction is the atomic `Sent`. -/
theorem sent_of_commit {a : SendAttempt} {msg : MessageRow} {read : List Write}
    (hread : ∀ w ∈ read, ∃ i j, w = Write.setLastRead i j)
    (ho : Open pg p a.input.channelId (writes a msg++read)) (hn : Numbered pg p a msg) :
    Sent msg pg.db (pg.view p) := by
  have hc : msg.channelId = a.input.channelId := by
    rw [hn.row]
    rfl
  obtain ⟨hm,hch,hb⟩ := applyAll_setLastRead hread (applyAll (writes a msg) pg.db)
  rw [ho.view,applyAll_append]
  refine ⟨hn.fresh,hc ▸ ho.channel,?_,?_,hm.trans rfl,?_,hb.trans rfl⟩
  · rw [hc]
    conv_lhs => rw [hn.row]
    rfl
  · rw [hn.row]
    rfl
  · rw [hch,hc]
    rfl

theorem posted_of_sent {db db' : Db} {msg : MessageRow} (h : Sent msg db db') (u : Option String) :
    Posted db' (toMessagePayload msg u) :=
  ⟨msg,u,rfl,h.live,.inl (by simp [h.messages])⟩

/-- The statements of the transaction. -/
theorem own_statement {a : SendAttempt} {w : World} {next : Send} {r : Option (Except DbError Postgres)}
    {q : Send} {w' : World} (h : statement a w next r = some (q,w')) :
    (∃ err, r = some (.error err) ∧ q = .rollback a err ∧ w' = w) ∨
    ∃ pg, r = some (.ok pg) ∧ q = next ∧ w' = { w with pg := pg } := by
  unfold statement at h
  split at h
  · simp at h
  · rename_i err
    simp only [Option.some.injEq,Prod.mk.injEq] at h
    exact .inl ⟨err,rfl,h.1.symm,h.2.symm⟩
  · rename_i pg
    simp only [Option.some.injEq,Prod.mk.injEq] at h
    exact .inr ⟨pg,rfl,h.1.symm,h.2.symm⟩

/-- A statement that no constraint can refuse. -/
theorem own_plain {a : SendAttempt} {w : World} {next : Send} {r : Option Postgres} {q : Send} {w' : World}
    (h : statement a w next (r.map .ok) = some (q,w')) :
    ∃ pg, r = some pg ∧ q = next ∧ w' = { w with pg := pg } := by
  rcases own_statement h with ⟨err,hr,_⟩ | ⟨pg,hr,hq,hw⟩
  · simp at hr
  · obtain ⟨pg',hpg,he⟩ := Option.map_eq_some_iff.mp hr
    obtain rfl := Except.ok.inj he
    exact ⟨pg',hpg,hq,hw⟩

theorem hasChannel_of_sender {db : Db} {u c : Uuid} {r : UserRow × ChannelRow}
    (h : db.sender? u c = some r) : db.HasChannel c := by
  simp only [Db.sender?,Option.bind_eq_bind,Option.bind_eq_some_iff] at h
  obtain ⟨m,hm,user,_,channel,hc,_⟩ := h
  have hmc : m.channelId = c := (Db.of_membership? hm).2.2
  obtain ⟨hr,hid⟩ := Db.of_channel? hc
  exact ⟨channel,hr,hid.trans hmc⟩

theorem checkSender_member {input : SendMessageInput} {o : Option (UserRow × ChannelRow)} {name : String}
    (h : checkSender x input o = .ok name) : ∃ r, o = some r := by
  cases o with
  | none => simp [checkSender] at h
  | some r => exact ⟨r,rfl⟩

theorem checkSender_error {input : SendMessageInput} {o : Option (UserRow × ChannelRow)} {err : HttpError}
    (h : checkSender x input o = .error err) : err ≠ .database sequenceCollision := by
  unfold checkSender at h
  split at h
  · cases h
    simp
  · split_ifs at h <;> cases h <;> simp

theorem assertSendLimits_error {input : SendMessageInput} {err : HttpError}
    (h : assertSendLimits input = .error err) : err ≠ .database sequenceCollision := by
  rintro rfl
  simp only [assertSendLimits,throw,throwThe,MonadExceptOf.throw,bind,Except.bind,pure,Except.pure] at h
  split_ifs at h <;> try simp at h
  split at h <;> try simp at h
  split_ifs at h
  simp at h

variable {ch : Choice} {w w' : World}

theorem lookup_assert {m : MessagePayload} {e : Option ℕ} {g : GetMembers}
    {k : Option (Option (List Uuid))} (h : pg.Idle p ∧ Posted pg.db m) (hg : ∀ err, g = .failed err → err ≠ sequenceCollision) :
    (joinLookup m e g k).Assert p pg := by
  unfold joinLookup
  split
  · rename_i err
    exact ⟨h.1,fun he => hg err rfl (HttpError.database.inj he)⟩
  · exact h
  · rename_i hne _
    exact ⟨h.1,h.2,fun err he => hne err he⟩

theorem getMembers_error {g g' : GetMembers} (h : g.step ch w = some (g',w')) :
    ∀ err, g' = .failed err → err ≠ sequenceCollision := by
  rintro err rfl
  unfold GetMembers.step at h
  split at h <;> try split_ifs at h
  all_goals simp at h
  rw [← h.1]
  decide

/-- A failed statement of the transaction leaves everything to the rollback. -/
theorem own_abort {a : SendAttempt} {q : Send} (hs : Sane w.pg)
    (hch : w.pg.db.HasChannel a.input.channelId)
    (hq : some (Send.rollback a aborted,w) = some (q,w')) :
    Advance x p T w.pg w'.pg ∧ q.Assert p w'.pg := by
  obtain ⟨rfl,rfl⟩ := Prod.mk.inj (Option.some.inj hq)
  exact ⟨.refl hs,hch,by decide⟩

theorem own_insert {a : SendAttempt} {seq : ℕ} {q : Send} (hs : Sane w.pg)
    (h : (Send.insert a seq).Assert p w.pg) (hq : (Send.insert a seq).step x p ch w = some (q,w')) :
    Advance x p T w.pg w'.pg ∧ q.Assert p w'.pg := by
  obtain ⟨ho,rfl⟩ := h
  simp only [step] at hq
  split at hq
  · exact own_abort hs ho.channel hq
  · have hview : w.pg.view p = w.pg.db := ho.view
    rcases own_statement hq with ⟨err,hr,rfl,rfl⟩ | ⟨pg',hr,rfl,rfl⟩
    · rcases insertMessage_cases hr with ⟨err',he,hv⟩ | ⟨pg',he,_,_⟩
      · obtain rfl := Except.error.inj he
        refine ⟨.refl hs,ho.channel,fun herr => ?_⟩
        rw [herr,hview] at hv
        exact messageViolation_ne_collision rfl hv
      · simp at he
    · rcases insertMessage_cases hr with ⟨err',he,hv⟩ | ⟨pg'',he,hv,hst⟩
      · simp at he
      · obtain rfl := Except.ok.inj he
        obtain ⟨hdb,_,hnew,_⟩ := Pg.statement_spec hst
        refine ⟨.statement hs hst,ho.statement hst,?_,?_,?_⟩
        · rw [hdb]
          rfl
        · exact hnew _ _ (by simp [messageLocks])
        · rw [hdb]
          rw [hview] at hv
          exact fresh_of_messageViolation hv

theorem own_commit {a : SendAttempt} {msg : MessageRow} {q : Send} (hs : Sane w.pg)
    (h : (Send.commit a msg).Assert p w.pg) (hq : (Send.commit a msg).step x p ch w = some (q,w')) :
    Advance x p (Send.commit a msg).Commits w.pg w'.pg ∧ q.Assert p w'.pg := by
  obtain ⟨read,hread,ho,hn⟩ := h
  simp only [step] at hq
  split at hq
  · exact own_abort hs ho.channel hq
  · obtain ⟨rfl,rfl⟩ := Prod.mk.inj (Option.some.inj hq)
    have hsent := sent_of_commit hread ho hn
    have hc : msg.channelId = a.input.channelId := by
      rw [hn.row]
      rfl
    refine ⟨.commit hs hsent (.sent msg hsent) fun l => ?_,.commit _ _,posted_of_sent hsent _,by simp⟩
    rcases hsent.keeps x l with hk | rfl | rfl
    · exact .inl hk
    · exact .inr ⟨_,hc ▸ ho.lock⟩
    · exact .inr ⟨_,hn.claim⟩

/-- Every step of `send` keeps its assertion and respects the locks of the others. -/
theorem own {q q' : Send} (hs : Sane w.pg) (h : q.Assert p w.pg)
    (hq : q.step x p ch w = some (q',w')) : Advance x p q.Commits w.pg w'.pg ∧ q'.Assert p w'.pg := by
  cases q with
  | check input e =>
    simp only [step] at hq
    split at hq
    · rename_i err herr
      obtain ⟨rfl,rfl⟩ := Prod.mk.inj (Option.some.inj hq)
      exact ⟨.refl hs,h,assertSendLimits_error herr⟩
    · split at hq
      · obtain ⟨rfl,rfl⟩ := Prod.mk.inj (Option.some.inj hq)
        exact ⟨.refl hs,h,by simp [aborted,sequenceCollision,uniqueViolation]⟩
      · split at hq
        · rename_i err herr
          obtain ⟨rfl,rfl⟩ := Prod.mk.inj (Option.some.inj hq)
          exact ⟨.refl hs,h,checkSender_error herr⟩
        · rename_i name hname
          obtain ⟨rfl,rfl⟩ := Prod.mk.inj (Option.some.inj hq)
          obtain ⟨r,hr⟩ := checkSender_member hname
          exact ⟨.refl hs,h,hasChannel_of_sender hr⟩
  | begin a =>
    obtain ⟨rfl,rfl⟩ := Prod.mk.inj (Option.some.inj hq)
    exact ⟨.refl hs,h⟩
  | lock a =>
    simp only [step] at hq
    split at hq
    · exact own_abort hs h.2 hq
    · obtain ⟨pg',hl,rfl,rfl⟩ := own_plain hq
      obtain ⟨hacq,ho⟩ := Open.of_lockChannel h.1.pending h.2 rfl hl
      exact ⟨.acquire hs hacq,ho⟩
  | maxSeq a =>
    simp only [step] at hq
    split at hq
    · exact own_abort hs (Open.channel h) hq
    · obtain ⟨rfl,rfl⟩ := Prod.mk.inj (Option.some.inj hq)
      exact ⟨.refl hs,h,by rw [Open.view h]; rfl⟩
  | insert a seq => exact own_insert hs h hq
  | lastMessage a msg =>
    simp only [step] at hq
    split at hq
    · exact own_abort hs h.1.channel hq
    · obtain ⟨pg',hst,rfl,rfl⟩ := own_plain hq
      obtain ⟨hdb,_,_,hold⟩ := Pg.statement_spec hst
      refine ⟨.statement hs hst,h.1.statement hst,?_,hold _ _ _ h.2.claim,?_⟩
      · rw [hdb]
        exact h.2.row
      · rw [hdb]
        exact h.2.fresh
  | lastRead a msg =>
    simp only [step] at hq
    split at hq
    · exact own_abort hs h.1.channel hq
    · obtain ⟨pg',hst,rfl,rfl⟩ := own_plain hq
      unfold markOwnRead at hst
      split at hst
      · obtain rfl := Option.some.inj hst
        exact ⟨.refl hs,[],by simp,by simpa using h.1,h.2⟩
      · rename_i r _
        obtain ⟨hdb,_,_,hold⟩ := Pg.statement_spec hst
        refine ⟨.statement hs hst,_,?_,h.1.statement hst,?_,hold _ _ _ h.2.claim,?_⟩
        · intro w hw
          exact ⟨r.id,msg.id,List.mem_singleton.mp hw⟩
        · rw [hdb]
          exact h.2.row
        · rw [hdb]
          exact h.2.fresh
  | commit a msg => exact own_commit hs h hq
  | rollback a err =>
    simp only [step] at hq
    split at hq
    · obtain ⟨rfl,rfl⟩ := Prod.mk.inj (Option.some.inj hq)
      exact ⟨.rollback hs,.rollback _ _,h.1⟩
    · obtain ⟨rfl,rfl⟩ := Prod.mk.inj (Option.some.inj hq)
      exact ⟨.rollback hs,.rollback _ _,fun he => h.2 (HttpError.database.inj he)⟩
  | lookup m e g k =>
    simp only [step] at hq
    split at hq
    · split at hq
      · simp at hq
      · obtain ⟨rfl,rfl⟩ := Prod.mk.inj (Option.some.inj hq)
        exact ⟨.refl hs,lookup_assert ⟨h.1,h.2.1⟩ fun err he => absurd he (h.2.2 err)⟩
    · obtain ⟨⟨g',v⟩,hg,he⟩ := Option.map_eq_some_iff.mp hq
      obtain ⟨rfl,rfl⟩ := Prod.mk.inj he
      have hpg := GetMembers.step_pg hg
      rw [hpg]
      exact ⟨.refl hs,lookup_assert ⟨h.1,h.2.1⟩ (getMembers_error hg)⟩
  | emit m e ms k =>
    obtain ⟨rfl,rfl⟩ := Prod.mk.inj (Option.some.inj hq)
    exact ⟨.refl hs,h⟩
  | cache m ms k =>
    obtain ⟨rfl,rfl⟩ := Prod.mk.inj (Option.some.inj hq)
    have hpg : (if ch.fail then w else { w with redis := w.redis.cacheMessage m.channelId m }).pg = w.pg := by
      split <;> rfl
    rw [hpg]
    refine ⟨.refl hs,?_⟩
    split
    · exact h
    · exact h
  | enqueue job =>
    simp only [step] at hq
    split at hq
    · obtain ⟨rfl,rfl⟩ := Prod.mk.inj (Option.some.inj hq)
      exact ⟨.refl hs,h⟩
    · obtain ⟨rfl,rfl⟩ := Prod.mk.inj (Option.some.inj hq)
      exact ⟨.refl hs,h⟩
  | deliver d =>
    obtain ⟨⟨d',v⟩,hd,he⟩ := Option.map_eq_some_iff.mp hq
    obtain ⟨rfl,rfl⟩ := Prod.mk.inj he
    rw [Delivery.step_pg hd]
    refine ⟨.refl hs,?_⟩
    simp only
    split
    · exact h
    · simp only [Assert,Delivery.step_job hd]
      exact h
  | done m => simp [step] at hq
  | failed err => simp [step] at hq

end Send

end ZevraServer
