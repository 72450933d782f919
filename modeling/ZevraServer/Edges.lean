import ZevraServer.Effects

/-!
# The control flow of the calls

One constructor for each way a call can move from one control state to the next, with
the data it carries along. Properties of a call's later control states are proved by
cases on these edges.
-/

namespace ZevraServer

open ReadCommitted Interleaving

variable {x : Externals} {p : ℕ} {ch : Choice} {w w' : World}

/-! ### `send` -/

/-- Control states of the insert transaction. -/
def Send.inTransaction : Send → Option SendAttempt
  | .lock a => some a
  | .maxSeq a => some a
  | .insert a _ => some a
  | .lastMessage a _ => some a
  | .lastRead a _ => some a
  | .commit a _ => some a
  | _ => none

inductive Send.Edge (p : ℕ) (ch : Choice) (w w' : World) : Send → Send → Prop
  | refused {input e} (err) : Edge p ch w w' (.check input e) (.failed err)
  | checked {input e} (name) : Edge p ch w w' (.check input e) (.begin ⟨input,e,name,0,0⟩)
  | begin {a} : Edge p ch w w' (.begin a) (.lock { a with startedAt := ch.now })
  | abort {q a} (h : q.inTransaction = some a) (err) : Edge p ch w w' q (.rollback a err)
  | locked {a} : Edge p ch w w' (.lock a) (.maxSeq a)
  | numbered {a} (seq) : Edge p ch w w' (.maxSeq a) (.insert a seq)
  | inserted {a seq} (id) : Edge p ch w w' (.insert a seq) (.lastMessage a (a.row id seq))
  | pointed {a msg} : Edge p ch w w' (.lastMessage a msg) (.lastRead a msg)
  | read {a msg} : Edge p ch w w' (.lastRead a msg) (.commit a msg)
  | committed {a msg} (hw : w' = { w with pg := w.pg.commit p }) :
      Edge p ch w w' (.commit a msg) (.lookup (toMessagePayload msg (some a.username)) a.exceptSocketId
        (.cached msg.channelId) none)
  | retry {a err} : Edge p ch w w' (.rollback a err) (.begin { a with attempt := a.attempt+1 })
  | failed {a err} : Edge p ch w w' (.rollback a err) (.failed (.database err))
  | snapshot {m e g} (hs : ch.side = true) (hw : w' = w) : Edge p ch w w' (.lookup m e g none)
      (joinLookup m e g (some (if ch.fail then none else some (connectedUserIds w m.channelId))))
  | members {m e g k g'} (hs : ch.side = false) (hg : g.step ch w = some (g',w')) :
      Edge p ch w w' (.lookup m e g k) (joinLookup m e g' k)
  | emitted {m e ms k} : Edge p ch w w' (.emit m e ms k) (.cache m ms k)
  | cached {m ms k} (h : (deliveryJob m ms k).recipientIds ≠ []) :
      Edge p ch w w' (.cache m ms k) (.enqueue (deliveryJob m ms k))
  | alone {m ms k} (h : (deliveryJob m ms k).recipientIds = []) : Edge p ch w w' (.cache m ms k) (.done m)
  | inline {job} (h : ch.fail = true) : Edge p ch w w' (.enqueue job) (.deliver (.start job))
  | enqueued {job} (h : ch.fail = false) : Edge p ch w w' (.enqueue job) (.done job.message)
  | delivering {d d'} (hd : d.step ch w = some (d',w')) (h : d'.finished = false) :
      Edge p ch w w' (.deliver d) (.deliver d')
  | delivered {d d'} (hd : d.step ch w = some (d',w')) (h : d'.finished = true) :
      Edge p ch w w' (.deliver d) (.done d.job.message)

theorem Send.edge_of_statement {a : SendAttempt} {next q q' : Send}
    {r : Option (Except DbError Postgres)} (hq : q.inTransaction = some a)
    (h : Send.statement a w next r = some (q',w')) (hnext : Send.Edge p ch w w' q next) :
    Send.Edge p ch w w' q q' := by
  rcases Send.own_statement h with ⟨err,_,rfl,_⟩ | ⟨_,_,rfl,_⟩
  · exact .abort hq err
  · exact hnext

theorem Send.edge {q q' : Send} (h : q.step x p ch w = some (q',w')) : Send.Edge p ch w w' q q' := by
  cases q with
  | check input e =>
    simp only [Send.step] at h
    split at h
    · obtain ⟨rfl,_⟩ := Prod.mk.inj (Option.some.inj h)
      exact .refused _
    · split at h
      · obtain ⟨rfl,_⟩ := Prod.mk.inj (Option.some.inj h)
        exact .refused _
      · split at h <;> obtain ⟨rfl,_⟩ := Prod.mk.inj (Option.some.inj h)
        · exact .refused _
        · exact .checked _
  | begin a =>
    obtain ⟨rfl,_⟩ := Prod.mk.inj (Option.some.inj h)
    exact .begin
  | lock a =>
    simp only [Send.step] at h
    split at h
    · obtain ⟨rfl,_⟩ := Prod.mk.inj (Option.some.inj h)
      exact .abort rfl _
    · exact edge_of_statement rfl h .locked
  | maxSeq a =>
    simp only [Send.step] at h
    split at h <;> obtain ⟨rfl,_⟩ := Prod.mk.inj (Option.some.inj h)
    · exact .abort rfl _
    · exact .numbered _
  | insert a seq =>
    simp only [Send.step] at h
    split at h
    · obtain ⟨rfl,_⟩ := Prod.mk.inj (Option.some.inj h)
      exact .abort rfl _
    · exact edge_of_statement rfl h (.inserted _)
  | lastMessage a msg =>
    simp only [Send.step] at h
    split at h
    · obtain ⟨rfl,_⟩ := Prod.mk.inj (Option.some.inj h)
      exact .abort rfl _
    · exact edge_of_statement rfl h .pointed
  | lastRead a msg =>
    simp only [Send.step] at h
    split at h
    · obtain ⟨rfl,_⟩ := Prod.mk.inj (Option.some.inj h)
      exact .abort rfl _
    · exact edge_of_statement rfl h .read
  | commit a msg =>
    simp only [Send.step] at h
    split at h <;> obtain ⟨rfl,hw⟩ := Prod.mk.inj (Option.some.inj h)
    · exact .abort rfl _
    · exact .committed hw.symm
  | rollback a err =>
    simp only [Send.step] at h
    split at h <;> obtain ⟨rfl,_⟩ := Prod.mk.inj (Option.some.inj h)
    · exact .retry
    · exact .failed
  | lookup m e g k =>
    simp only [Send.step] at h
    split at h
    · rename_i hs
      split at h
      · simp at h
      · obtain ⟨rfl,hw⟩ := Prod.mk.inj (Option.some.inj h)
        exact .snapshot hs hw.symm
    · rename_i hs
      obtain ⟨⟨g',v⟩,hg,he⟩ := Option.map_eq_some_iff.mp h
      obtain ⟨rfl,rfl⟩ := Prod.mk.inj he
      exact .members (by simpa using hs) hg
  | emit m e ms k =>
    obtain ⟨rfl,_⟩ := Prod.mk.inj (Option.some.inj h)
    exact .emitted
  | cache m ms k =>
    obtain ⟨rfl,_⟩ := Prod.mk.inj (Option.some.inj h)
    split <;> rename_i hrec
    · exact .alone (by simpa using hrec)
    · exact .cached (by simpa using hrec)
  | enqueue job =>
    simp only [Send.step] at h
    split at h <;> rename_i hf <;> obtain ⟨rfl,_⟩ := Prod.mk.inj (Option.some.inj h)
    · exact .inline hf
    · exact .enqueued (by simpa using hf)
  | deliver d =>
    obtain ⟨⟨d',v⟩,hd,he⟩ := Option.map_eq_some_iff.mp h
    obtain ⟨rfl,rfl⟩ := Prod.mk.inj he
    simp only
    split <;> rename_i hfin
    · exact .delivered hd hfin
    · exact .delivering hd (by simpa using hfin)
  | done m => simp [Send.step] at h
  | failed err => simp [Send.step] at h

/-! ### `deleteMessage` -/

/-- Control states of the delete transaction. -/
def DeleteMessage.inTransaction : DeleteMessage → Bool
  | .wipe _ _ | .reactions _ _ | .lock _ _ | .previous _ _ | .lastMessage _ _ _ | .commit _ _ => true
  | _ => false

inductive DeleteMessage.Edge (p : ℕ) (ch : Choice) (w w' : World) : DeleteMessage → DeleteMessage → Prop
  | refused {u m} (err) : Edge p ch w w' (.select u m) (.failed err)
  | again {u m} (msg : MessageRow) (hm : w.pg.db.message? m = some msg) (hd : msg.isDeleted = true)
      (hw : w' = w) : Edge p ch w w' (.select u m) (.invalidate m msg.channelId)
  | selected {u m} (msg : MessageRow) (hm : w.pg.db.message? m = some msg) (hd : msg.isDeleted = false) :
      Edge p ch w w' (.select u m) (.begin m msg.channelId)
  | begin {m c} : Edge p ch w w' (.begin m c) (.wipe m c)
  | abort {q} (h : q.inTransaction = true) (err) : Edge p ch w w' q (.rollback err)
  | wiped {m c} : Edge p ch w w' (.wipe m c) (.reactions m c)
  | cleared {m c} : Edge p ch w w' (.reactions m c) (.lock m c)
  | last {m c} : Edge p ch w w' (.lock m c) (.previous m c)
  | other {m c} : Edge p ch w w' (.lock m c) (.commit m c)
  | found {m c} (prev) : Edge p ch w w' (.previous m c) (.lastMessage m c prev)
  | pointed {m c prev} : Edge p ch w w' (.lastMessage m c prev) (.commit m c)
  | committed {m c} (hw : w' = { w with pg := w.pg.commit p }) :
      Edge p ch w w' (.commit m c) (.invalidate m c)
  | failed {err} : Edge p ch w w' (.rollback err) (.failed (.database err))
  | invalidated {m c} : Edge p ch w w' (.invalidate m c) (.emit m c)
  | emitted {m c} : Edge p ch w w' (.emit m c) (.done m c)

theorem DeleteMessage.edge_of_statement {next q q' : DeleteMessage} {r : Option Postgres}
    (h : DeleteMessage.statement w next r = some (q',w')) (hnext : DeleteMessage.Edge p ch w w' q next) :
    DeleteMessage.Edge p ch w w' q q' := by
  obtain ⟨_,_,rfl,_⟩ := DeleteMessage.own_statement h
  exact hnext

theorem DeleteMessage.edge {q q' : DeleteMessage} (h : q.step p ch w = some (q',w')) :
    DeleteMessage.Edge p ch w w' q q' := by
  cases q with
  | select u m =>
    simp only [DeleteMessage.step] at h
    split at h
    · obtain ⟨rfl,_⟩ := Prod.mk.inj (Option.some.inj h)
      exact .refused _
    · split at h
      · obtain ⟨rfl,_⟩ := Prod.mk.inj (Option.some.inj h)
        exact .refused _
      · rename_i msg hm
        split_ifs at h with hsender hd <;> obtain ⟨rfl,hw⟩ := Prod.mk.inj (Option.some.inj h)
        · exact .refused _
        · exact .again msg hm hd hw.symm
        · exact .selected msg hm (by simpa using hd)
  | begin m c =>
    obtain ⟨rfl,_⟩ := Prod.mk.inj (Option.some.inj h)
    exact .begin
  | wipe m c =>
    simp only [DeleteMessage.step] at h
    split at h
    · obtain ⟨rfl,_⟩ := Prod.mk.inj (Option.some.inj h)
      exact .abort rfl _
    · exact edge_of_statement h .wiped
  | reactions m c =>
    simp only [DeleteMessage.step] at h
    split at h
    · obtain ⟨rfl,_⟩ := Prod.mk.inj (Option.some.inj h)
      exact .abort rfl _
    · exact edge_of_statement h .cleared
  | lock m c =>
    simp only [DeleteMessage.step] at h
    split at h
    · obtain ⟨rfl,_⟩ := Prod.mk.inj (Option.some.inj h)
      exact .abort rfl _
    · refine edge_of_statement h ?_
      split
      · exact .last
      · exact .other
  | previous m c =>
    simp only [DeleteMessage.step] at h
    split at h <;> obtain ⟨rfl,_⟩ := Prod.mk.inj (Option.some.inj h)
    · exact .abort rfl _
    · exact .found _
  | lastMessage m c prev =>
    simp only [DeleteMessage.step] at h
    split at h
    · obtain ⟨rfl,_⟩ := Prod.mk.inj (Option.some.inj h)
      exact .abort rfl _
    · exact edge_of_statement h .pointed
  | commit m c =>
    simp only [DeleteMessage.step] at h
    split at h <;> obtain ⟨rfl,hw⟩ := Prod.mk.inj (Option.some.inj h)
    · exact .abort rfl _
    · exact .committed hw.symm
  | rollback err =>
    obtain ⟨rfl,_⟩ := Prod.mk.inj (Option.some.inj h)
    exact .failed
  | invalidate m c =>
    obtain ⟨rfl,_⟩ := Prod.mk.inj (Option.some.inj h)
    exact .invalidated
  | emit m c =>
    obtain ⟨rfl,_⟩ := Prod.mk.inj (Option.some.inj h)
    exact .emitted
  | done m c => simp [DeleteMessage.step] at h
  | failed err => simp [DeleteMessage.step] at h

/-! ### `create` -/

/-- Control states after the commit, which always lead to an answer. -/
def Create.late : Create → Bool
  | .store _ _ | .join _ _ _ | .emit _ _ | .client _ _ _ | .done _ _ _ => true
  | _ => false

inductive Create.Edge (p : ℕ) (ch : Choice) (w w' : World) : Create → Create → Prop
  | failed {q} (h : q.late = false) (err) : Edge p ch w w' q (.failed err)
  | abort {q} (h : q.late = false) (err) : Edge p ch w w' q (.rollback err)
  | checked {input} (a) (h : checkParticipants input = .ok a) : Edge p ch w w' (.find input) (.begin a)
  | direct {a} (h : a.type = .direct) :
      Edge p ch w w' (.begin a) (.lockPair { a with startedAt := ch.now })
  | group {a} (h : a.type = .group) :
      Edge p ch w w' (.begin a) (.insertChannel { a with startedAt := ch.now })
  | locked {a} : Edge p ch w w' (.lockPair a) (.existing a)
  | existing {a} (c) (h : c ∈ (w.pg.view p).directChannels a.pair.1 a.pair.2) :
      Edge p ch w w' (.existing a) (.summary a c)
  | missing {a} : Edge p ch w w' (.existing a) (.insertChannel a)
  | summary {a c} : Edge p ch w w' (.summary a c) (.commit a ((w.pg.view p).channel? c) false)
  | inserted {a} (id) : Edge p ch w w' (.insertChannel a) (.insertMemberships a (a.channelRow id))
  | populated {a channel} : Edge p ch w w' (.insertMemberships a channel) (.commit a (some channel) true)
  | created {a channel} (hw : w' = { w with pg := w.pg.commit p }) :
      Edge p ch w w' (.commit a (some channel) true) (.store a channel)
  | found {a channel} (hw : w' = { w with pg := w.pg.commit p }) :
      Edge p ch w w' (.commit a (some channel) false) (.join a channel false)
  | stored {a channel} : Edge p ch w w' (.store a channel) (.join a channel true)
  | joined {a channel} : Edge p ch w w' (.join a channel true) (.emit a channel)
  | rejoined {a channel} : Edge p ch w w' (.join a channel false) (.client a channel false)
  | emitted {a channel} : Edge p ch w w' (.emit a channel) (.client a channel true)
  | client {a channel created} : Edge p ch w w' (.client a channel created) (.done a channel created)

theorem Create.edge_of_statement {next q q' : Create} {r : Option (Except DbError Postgres)}
    (hq : q.late = false) (h : Create.statement w next r = some (q',w')) (hnext : Create.Edge p ch w w' q next) :
    Create.Edge p ch w w' q q' := by
  rcases Create.own_statement h with ⟨err,rfl,_⟩ | ⟨_,_,rfl,_⟩
  · exact .abort hq err
  · exact hnext

theorem Create.edge {q q' : Create} (h : q.step x p ch w = some (q',w')) : Create.Edge p ch w w' q q' := by
  cases q with
  | find input =>
    simp only [Create.step] at h
    split at h
    · obtain ⟨rfl,_⟩ := Prod.mk.inj (Option.some.inj h)
      exact .failed rfl _
    · rename_i a ha
      split_ifs at h <;> obtain ⟨rfl,_⟩ := Prod.mk.inj (Option.some.inj h)
      · exact .failed rfl _
      · exact .failed rfl _
      · exact .checked a ha
  | begin a =>
    obtain ⟨rfl,_⟩ := Prod.mk.inj (Option.some.inj h)
    simp only
    split <;> rename_i ht
    · exact .direct ht
    · exact .group ht
  | lockPair a =>
    simp only [Create.step] at h
    split at h
    · obtain ⟨rfl,_⟩ := Prod.mk.inj (Option.some.inj h)
      exact .abort rfl _
    · exact edge_of_statement rfl h .locked
  | existing a =>
    simp only [Create.step] at h
    split at h
    · obtain ⟨rfl,_⟩ := Prod.mk.inj (Option.some.inj h)
      exact .abort rfl _
    · split at h
      · rename_i c hpick
        obtain ⟨rfl,_⟩ := Prod.mk.inj (Option.some.inj h)
        exact .existing c (Db.pick_mem hpick)
      · obtain ⟨rfl,_⟩ := Prod.mk.inj (Option.some.inj h)
        exact .missing
  | summary a c =>
    simp only [Create.step] at h
    split at h <;> obtain ⟨rfl,_⟩ := Prod.mk.inj (Option.some.inj h)
    · exact .abort rfl _
    · exact .summary
  | insertChannel a =>
    simp only [Create.step] at h
    split at h
    · obtain ⟨rfl,_⟩ := Prod.mk.inj (Option.some.inj h)
      exact .abort rfl _
    · exact edge_of_statement rfl h (.inserted _)
  | insertMemberships a channel =>
    simp only [Create.step] at h
    split at h
    · obtain ⟨rfl,_⟩ := Prod.mk.inj (Option.some.inj h)
      exact .abort rfl _
    · exact edge_of_statement rfl h .populated
  | commit a channel created =>
    simp only [Create.step] at h
    split at h
    · obtain ⟨rfl,_⟩ := Prod.mk.inj (Option.some.inj h)
      exact .abort rfl _
    · split at h
      · obtain ⟨rfl,_⟩ := Prod.mk.inj (Option.some.inj h)
        exact .failed rfl _
      · obtain ⟨rfl,hw⟩ := Prod.mk.inj (Option.some.inj h)
        cases created with
        | false => exact .found hw.symm
        | true => exact .created hw.symm
  | rollback err =>
    obtain ⟨rfl,_⟩ := Prod.mk.inj (Option.some.inj h)
    exact .failed rfl _
  | store a channel =>
    obtain ⟨rfl,_⟩ := Prod.mk.inj (Option.some.inj h)
    exact .stored
  | join a channel created =>
    obtain ⟨rfl,_⟩ := Prod.mk.inj (Option.some.inj h)
    cases created with
    | false => exact .rejoined
    | true => exact .joined
  | emit a channel =>
    obtain ⟨rfl,_⟩ := Prod.mk.inj (Option.some.inj h)
    exact .emitted
  | client a channel created =>
    obtain ⟨rfl,_⟩ := Prod.mk.inj (Option.some.inj h)
    exact .client
  | done a channel created => simp [Create.step] at h
  | failed err => simp [Create.step] at h

/-! ### `addMember` -/

/-- Control states before the insertion has happened. -/
def AddMember.early : AddMember → Bool
  | .role _ | .channel _ | .user _ | .count _ | .insert _ => true
  | _ => false

inductive AddMember.Edge (p : ℕ) (ch : Choice) (w w' : World) : AddMember → AddMember → Prop
  | refused {q} (h : q.early = true) (hw : w'.pg = w.pg) (err) : Edge p ch w w' q (.failed err)
  | admin {a} : Edge p ch w w' (.role a) (.channel a)
  | group {a} : Edge p ch w w' (.channel a) (.user a)
  | active {a} : Edge p ch w w' (.user a) (.count a)
  | room {a} : Edge p ch w w' (.count a) (.insert a)
  | inserted {a} : Edge p ch w w' (.insert a) (.touch a)
  | untouched {a} (h : ch.fail = true) (hw : w' = w) (err) : Edge p ch w w' (.touch a) (.failed err)
  | touched {a} (hw : w'.pg = w.pg) : Edge p ch w w' (.touch a) (.invalidate a)
  | invalidated {a} : Edge p ch w w' (.invalidate a) (.join a)
  | joined {a} : Edge p ch w w' (.join a) (.emit a)
  | emitted {a} : Edge p ch w w' (.emit a) (.done a)

theorem AddMember.edge_of_query {q next q' : AddMember} (hq : q.early = true)
    (h : AddMember.query ch w next = some (q',w'))
    (hnext : (∃ err, next = .failed err) ∨ AddMember.Edge p ch w w' q next) :
    AddMember.Edge p ch w w' q q' := by
  obtain ⟨rfl,rfl | rfl⟩ := AddMember.query_eq h
  · exact .refused hq rfl _
  · rcases hnext with ⟨err,rfl⟩ | hnext
    · exact .refused hq rfl _
    · exact hnext

theorem AddMember.edge {q q' : AddMember} (h : q.step p ch w = some (q',w')) :
    AddMember.Edge p ch w w' q q' := by
  cases q with
  | role a =>
    refine edge_of_query rfl h ?_
    split
    · exact .inr .admin
    · exact .inl ⟨_,rfl⟩
  | channel a =>
    refine edge_of_query rfl h ?_
    split
    · exact .inl ⟨_,rfl⟩
    · split
      · exact .inl ⟨_,rfl⟩
      · exact .inr .group
  | user a =>
    refine edge_of_query rfl h ?_
    split
    · exact .inl ⟨_,rfl⟩
    · exact .inr .active
  | count a =>
    refine edge_of_query rfl h ?_
    split
    · exact .inl ⟨_,rfl⟩
    · exact .inr .room
  | insert a =>
    simp only [AddMember.step] at h
    split at h
    · obtain ⟨rfl,rfl⟩ := Prod.mk.inj (Option.some.inj h)
      exact .refused rfl rfl _
    · split at h
      · simp at h
      · obtain ⟨rfl,rfl⟩ := Prod.mk.inj (Option.some.inj h)
        exact .refused rfl rfl _
      · rename_i pg' inserted hins
        obtain ⟨rfl,rfl⟩ := Prod.mk.inj (Option.some.inj h)
        rcases insertMembershipOrNothing_cases hins with he | ⟨err,he⟩ | ⟨pg'',he,_,_⟩
        · obtain ⟨rfl,rfl⟩ := Prod.mk.inj (Except.ok.inj he)
          exact .refused rfl rfl _
        · simp at he
        · obtain ⟨rfl,rfl⟩ := Prod.mk.inj (Except.ok.inj he)
          exact .inserted
  | touch a =>
    simp only [AddMember.step] at h
    split at h
    · rename_i hf
      obtain ⟨rfl,rfl⟩ := Prod.mk.inj (Option.some.inj h)
      exact .untouched hf rfl _
    · obtain ⟨pg',htouch,he⟩ := Option.map_eq_some_iff.mp h
      obtain ⟨rfl,rfl⟩ := Prod.mk.inj he
      exact .touched (touchChannel_eq htouch)
  | invalidate a =>
    obtain ⟨rfl,_⟩ := Prod.mk.inj (Option.some.inj h)
    exact .invalidated
  | join a =>
    obtain ⟨rfl,_⟩ := Prod.mk.inj (Option.some.inj h)
    exact .joined
  | emit a =>
    obtain ⟨rfl,_⟩ := Prod.mk.inj (Option.some.inj h)
    exact .emitted
  | done a => simp [AddMember.step] at h
  | failed err => simp [AddMember.step] at h

/-! ### `removeMember` -/

/-- Control states of the remove transaction. -/
def RemoveMember.inTransaction : RemoveMember → Bool
  | .lock _ | .delete _ | .admin _ | .oldest _ | .promote _ _ | .touch _ _ | .commit _ _ => true
  | _ => false

inductive RemoveMember.Edge (p : ℕ) (ch : Choice) (w w' : World) : RemoveMember → RemoveMember → Prop
  | refused {a} (err) : Edge p ch w w' (.role a) (.failed err)
  | allowed {a} : Edge p ch w w' (.role a) (.lock a)
  | abort {q} (h : q.inTransaction = true) (hw : w' = w) (err) : Edge p ch w w' q (.rollback err)
  | locked {a} : Edge p ch w w' (.lock a) (.delete a)
  | lostAdmin {a} : Edge p ch w w' (.delete a) (.admin a)
  | lostMember {a} : Edge p ch w w' (.delete a) (.touch a none)
  | adminLeft {a} : Edge p ch w w' (.admin a) (.touch a none)
  | noAdmin {a} : Edge p ch w w' (.admin a) (.oldest a)
  | nobody {a} : Edge p ch w w' (.oldest a) (.touch a none)
  | oldest {a} (r) : Edge p ch w w' (.oldest a) (.promote a r)
  | promoted {a r} : Edge p ch w w' (.promote a r) (.touch a (some r.userId))
  | touched {a o} : Edge p ch w w' (.touch a o) (.commit a o)
  | committed {a o} (hw : w' = { w with pg := w.pg.commit p }) :
      Edge p ch w w' (.commit a o) (.cleanup a o false false)
  | failed {err} : Edge p ch w w' (.rollback err) (.failed err)
  | invalidated {a o r} (hs : ch.side = true) :
      Edge p ch w w' (.cleanup a o false r) (joinCleanup a o true r)
  | reset {a o i} (hs : ch.side = false) :
      Edge p ch w w' (.cleanup a o i false) (joinCleanup a o i true)
  | emitted {a o} : Edge p ch w w' (.emit a o) (.leave a o)
  | left {a o} : Edge p ch w w' (.leave a o) (.done a o)

theorem RemoveMember.edge_of_statement {next q q' : RemoveMember} {r : Option Postgres}
    (h : RemoveMember.statement w next r = some (q',w')) (hnext : RemoveMember.Edge p ch w w' q next) :
    RemoveMember.Edge p ch w w' q q' := by
  obtain ⟨_,_,rfl,_⟩ := RemoveMember.own_statement h
  exact hnext

theorem RemoveMember.edge {q q' : RemoveMember} (h : q.step p ch w = some (q',w')) :
    RemoveMember.Edge p ch w w' q q' := by
  cases q with
  | role a =>
    simp only [RemoveMember.step] at h
    split_ifs at h <;> obtain ⟨rfl,_⟩ := Prod.mk.inj (Option.some.inj h)
    · exact .allowed
    · exact .refused _
    · exact .allowed
    · exact .refused _
  | lock a =>
    simp only [RemoveMember.step] at h
    split_ifs at h
    · obtain ⟨rfl,rfl⟩ := Prod.mk.inj (Option.some.inj h)
      exact .abort rfl rfl _
    · obtain ⟨rfl,rfl⟩ := Prod.mk.inj (Option.some.inj h)
      exact .abort rfl rfl _
    · exact edge_of_statement h .locked
  | delete a =>
    simp only [RemoveMember.step] at h
    split at h
    · obtain ⟨rfl,rfl⟩ := Prod.mk.inj (Option.some.inj h)
      exact .abort rfl rfl _
    · split at h
      · obtain ⟨rfl,rfl⟩ := Prod.mk.inj (Option.some.inj h)
        exact .abort rfl rfl _
      · refine edge_of_statement h ?_
        split
        · exact .lostAdmin
        · exact .lostMember
  | admin a =>
    simp only [RemoveMember.step] at h
    split_ifs at h <;> obtain ⟨rfl,rfl⟩ := Prod.mk.inj (Option.some.inj h)
    · exact .abort rfl rfl _
    · exact .adminLeft
    · exact .noAdmin
  | oldest a =>
    simp only [RemoveMember.step] at h
    split_ifs at h <;> obtain ⟨rfl,rfl⟩ := Prod.mk.inj (Option.some.inj h)
    · exact .abort rfl rfl _
    · split
      · exact .nobody
      · exact .oldest _
  | promote a r =>
    simp only [RemoveMember.step] at h
    split_ifs at h
    · obtain ⟨rfl,rfl⟩ := Prod.mk.inj (Option.some.inj h)
      exact .abort rfl rfl _
    · exact edge_of_statement h .promoted
  | touch a o =>
    simp only [RemoveMember.step] at h
    split_ifs at h
    · obtain ⟨rfl,rfl⟩ := Prod.mk.inj (Option.some.inj h)
      exact .abort rfl rfl _
    · exact edge_of_statement h .touched
  | commit a o =>
    simp only [RemoveMember.step] at h
    split_ifs at h <;> obtain ⟨rfl,hw⟩ := Prod.mk.inj (Option.some.inj h)
    · exact .abort rfl hw.symm _
    · exact .committed hw.symm
  | rollback err =>
    obtain ⟨rfl,_⟩ := Prod.mk.inj (Option.some.inj h)
    exact .failed
  | cleanup a o i r =>
    simp only [RemoveMember.step] at h
    split at h
    · rename_i hs
      cases i with
      | true => simp at h
      | false =>
        obtain ⟨rfl,_⟩ := Prod.mk.inj (Option.some.inj h)
        exact .invalidated hs
    · rename_i hs
      cases r with
      | true => simp at h
      | false =>
        obtain ⟨rfl,_⟩ := Prod.mk.inj (Option.some.inj h)
        exact .reset (by simpa using hs)
  | emit a o =>
    obtain ⟨rfl,_⟩ := Prod.mk.inj (Option.some.inj h)
    exact .emitted
  | leave a o =>
    obtain ⟨rfl,_⟩ := Prod.mk.inj (Option.some.inj h)
    exact .left
  | done a o => simp [RemoveMember.step] at h
  | failed err => simp [RemoveMember.step] at h

end ZevraServer
