import ZevraServer.ReadState
import ZevraServer.Effects

/-!
# The read watermarks of a run

Both writers of a watermark move it forward: `send` to the message it inserts, which is
newer than every message of the channel while the channel row is locked, and the `UPDATE` of
`markRead` only where its own comparison on the current row says so. So a watermark never
moves backwards and stays on a message of its channel, and what `markRead` answers is what its
`UPDATE` has done.
-/

namespace ZevraServer.Reading

open ReadCommitted Interleaving

variable {x : Externals} {p : ℕ} {ch : Choice} {s s' : Store} {d e : Db} {pg pg' : Postgres}

/-! ### Rows of the watermark -/

@[simp] theorem setLastRead_id (r : MembershipRow) (i j : Uuid) : (r.setLastRead i j).id = r.id := by
  unfold MembershipRow.setLastRead
  split <;> rfl

@[simp] theorem setLastRead_channelId (r : MembershipRow) (i j : Uuid) :
    (r.setLastRead i j).channelId = r.channelId := by
  unfold MembershipRow.setLastRead
  split <;> rfl

@[simp] theorem setLastRead_userId (r : MembershipRow) (i j : Uuid) :
    (r.setLastRead i j).userId = r.userId := by
  unfold MembershipRow.setLastRead
  split <;> rfl

theorem setLastRead_of_ne {r : MembershipRow} {i : Uuid} (h : r.id ≠ i) (j : Uuid) :
    r.setLastRead i j = r := by
  simp [MembershipRow.setLastRead,h]

theorem setLastRead_self (r : MembershipRow) (j : Uuid) :
    (r.setLastRead r.id j).lastReadMessageId = some j := by
  simp [MembershipRow.setLastRead]

theorem Marked.row_unique (hm : Marked d) {r r' : MembershipRow} (hr : r ∈ d.memberships)
    (hr' : r' ∈ d.memberships) (hid : r.id = r'.id) : r = r' :=
  List.inj_on_of_nodup_map hm.rowIds hr hr' hid

/-- Where the watermark of a row stands. -/
theorem Marked.seqOf_cases (hm : Marked d) {r : MembershipRow} (hr : r ∈ d.memberships) :
    r.lastReadMessageId = none ∧ seqOf d r = 0 ∨
    ∃ t ∈ d.messages, r.lastReadMessageId = some t.id ∧ t.channelId = r.channelId ∧
      seqOf d r = t.sequenceNumber := by
  cases hl : r.lastReadMessageId with
  | none => exact .inl ⟨rfl,by simp [seqOf,hl]⟩
  | some i =>
    obtain ⟨t,ht,rfl,hc⟩ := hm.owned r hr i hl
    exact .inr ⟨t,ht,rfl,hc,by simp [seqOf,hl,hm.integrity.message?_of_mem ht]⟩

/-- A watermark is not above the channel's newest message. -/
theorem Marked.seqOf_le (hm : Marked d) {r : MembershipRow} (hr : r ∈ d.memberships) :
    seqOf d r ≤ d.maxSequence r.channelId := by
  rcases hm.seqOf_cases hr with ⟨_,h⟩ | ⟨t,ht,_,hc,h⟩
  · omega
  · rw [h,← hc]
    exact d.le_maxSequence ht

/-- The two tests of `markRead` are the comparison of the numbers. -/
theorem Marked.behind_iff (hm : Marked d) {r : MembershipRow} (hr : r ∈ d.memberships) {n : ℕ}
    (hn : 0 < n) : behind d r n = true ↔ seqOf d r < n := by
  rcases hm.seqOf_cases hr with ⟨hl,h⟩ | ⟨t,_,hl,_,h⟩
  · simp [behind,hl,h,hn]
  · simp [behind,hl]

/-! ### Changes of the tables -/

/-- A committed change that at most appends messages and moves one watermark, forward and to a
message of the channel. -/
structure Forward (d e : Db) : Prop where
  integrity : Integrity e
  members : e.members = d.members
  messages : ∃ new, e.messages = d.messages++new
  positive : ∀ m ∈ e.messages, 0 < m.sequenceNumber
  rows : e.memberships = d.memberships ∨
    ∃ r ∈ d.memberships, ∃ t ∈ e.messages, t.channelId = r.channelId ∧ seqOf d r < t.sequenceNumber ∧
      e.memberships = d.memberships.map (·.setLastRead r.id t.id)

namespace Forward

theorem refl (hm : Marked d) : Forward d d :=
  ⟨hm.integrity,rfl,⟨[],by simp⟩,hm.positive,.inl rfl⟩

theorem mem_messages (h : Forward d e) {m : MessageRow} (hm : m ∈ d.messages) : m ∈ e.messages := by
  obtain ⟨new,he⟩ := h.messages
  rw [he]
  exact List.mem_append_left _ hm

theorem hasMessage (h : Forward d e) {m c : Uuid} (hm : d.HasMessage m c) : e.HasMessage m c := by
  obtain ⟨t,ht,hid,hc⟩ := hm
  exact ⟨t,h.mem_messages ht,hid,hc⟩

/-- A row that keeps its watermark keeps where it stands. -/
theorem seqOf_eq (h : Forward d e) (hm : Marked d) {r : MembershipRow} (hr : r ∈ d.memberships) :
    seqOf e r = seqOf d r := by
  rcases hm.seqOf_cases hr with ⟨hl,hs⟩ | ⟨t,ht,hl,_,hs⟩
  · rw [hs]
    simp [seqOf,hl]
  · rw [hs]
    simp [seqOf,hl,h.integrity.message?_of_mem (h.mem_messages ht)]

/-- The rows after the change, each with the row before it. -/
theorem row_cases (h : Forward d e) (hm : Marked d) {r' : MembershipRow} (hr' : r' ∈ e.memberships) :
    r' ∈ d.memberships ∧ seqOf e r' = seqOf d r' ∨
    ∃ r ∈ d.memberships, ∃ t ∈ e.messages, t.channelId = r.channelId ∧ r' = r.setLastRead r.id t.id ∧
      seqOf d r < t.sequenceNumber ∧ seqOf e r' = t.sequenceNumber := by
  rcases h.rows with he | ⟨r,hr,t,ht,hc,hlt,he⟩
  · rw [he] at hr'
    exact .inl ⟨hr',h.seqOf_eq hm hr'⟩
  · rw [he] at hr'
    obtain ⟨r₀,hr₀,rfl⟩ := List.mem_map.mp hr'
    by_cases hid : r₀.id = r.id
    · obtain rfl := hm.row_unique hr₀ hr hid
      refine .inr ⟨r₀,hr₀,t,ht,hc,rfl,hlt,?_⟩
      simp [seqOf,setLastRead_self,h.integrity.message?_of_mem ht]
    · rw [setLastRead_of_ne hid]
      exact .inl ⟨hr₀,h.seqOf_eq hm hr₀⟩

theorem rowIds (h : Forward d e) : e.memberships.map (·.id) = d.memberships.map (·.id) := by
  rcases h.rows with he | ⟨r,_,t,_,_,_,he⟩
  · rw [he]
  · simp [he,Function.comp_def]

theorem marked (h : Forward d e) (hm : Marked d) : Marked e := by
  refine ⟨h.integrity,?_,h.positive,?_⟩
  · rw [h.rowIds]
    exact hm.rowIds
  · intro r' hr' i hi
    rcases h.row_cases hm hr' with ⟨hr,_⟩ | ⟨r,hr,t,ht,hc,rfl,_,_⟩
    · exact h.hasMessage (hm.owned r' hr i hi)
    · rw [setLastRead_self] at hi
      obtain rfl := Option.some.inj hi
      exact ⟨t,ht,rfl,by simpa using hc⟩

theorem mono (h : Forward d e) (hm : Marked d) {r r' : MembershipRow} (hr : r ∈ d.memberships)
    (hr' : r' ∈ e.memberships) (hid : r.id = r'.id) : seqOf d r ≤ seqOf e r' := by
  rcases h.row_cases hm hr' with ⟨hr₀,hs⟩ | ⟨r₀,hr₀,t,_,_,rfl,hlt,hs⟩
  · obtain rfl := hm.row_unique hr hr₀ hid
    exact hs.ge
  · obtain rfl := hm.row_unique hr hr₀ (by simpa using hid)
    omega

end Forward

/-- What the locks and the constraints say does not depend on the watermarks. -/
theorem frozen_of_members (hm : e.messages = d.messages) (hc : e.channels = d.channels)
    (hb : e.members = d.members) (c : Uuid) : Frozen c d e :=
  ⟨by simp only [Db.messagesOf,hm],by simp only [Db.channel?,hc],Db.roster_congr hb c⟩

theorem keeps_of_members (hm : e.messages = d.messages) (hc : e.channels = d.channels)
    (hb : e.members = d.members) (l : Resource) : keeps x l d e := by
  cases l with
  | channel c => exact frozen_of_members hm hc hb c
  | channelId i => exact fun hd => by rwa [Db.HasChannel,hc]
  | messageId i => exact fun hd => by rwa [hm]
  | advisory k =>
    refine fun a b _ _ c h => ⟨?_,(Db.hasMember_congr hb a c).mp h.2.1,(Db.hasMember_congr hb b c).mp h.2.2⟩
    have ht := h.1
    rwa [Db.Typed,hc] at ht
  | _ => trivial

theorem grows_of_members (hm : e.messages = d.messages) (hc : e.channels = d.channels) : Grows d e :=
  ⟨fun r hr => ⟨r,by rwa [hc],rfl,rfl⟩,fun m h => .inl (by rwa [hm])⟩

theorem integrity_of_members (hi : Integrity d) (hm : e.messages = d.messages)
    (hc : e.channels = d.channels) (hb : e.members = d.members) : Integrity e := by
  have hg := grows_of_members hm hc
  refine hi.of_messages hg hm (by rw [hc]; exact hi.channelIds) ?_ (by rw [hb]; exact hi.memberKeys)
  rw [hb]
  exact fun r hr => hg.hasChannel (hi.memberChannel r hr)

/-! ### The assertions of the calls -/

/-- The statement of `send` before the commit has moved the sender's own row or, without one,
nothing. -/
def OwnRead (p : ℕ) (pg : Postgres) : Send → Prop
  | .commit a msg => pg.pending p = Send.writes a msg ∨
    ∃ r ∈ pg.db.members, r.userId = a.input.userId ∧ r.channelId = a.input.channelId ∧
      pg.pending p = Send.writes a msg++[.setLastRead r.id msg.id]
  | _ => True

/-- The `UPDATE` of `markRead` carries the row of the reader and the number of the message. -/
def MarkRead.Assert (db : Db) : MarkRead → Prop
  | .update u c m i n => (∃ r ∈ db.members, r.id = i ∧ r.userId = u ∧ r.channelId = c) ∧
    ∃ t ∈ db.messages, t.id = m ∧ t.channelId = c ∧ t.sequenceNumber = n
  | _ => True

def Call.Assert (p : ℕ) (s : Store) : Call → Prop
  | .send q => q.Assert p s.base.pg ∧ OwnRead p s.base.pg q
  | .worker _ => s.base.pg.Idle p
  | .markRead q => s.base.pg.Idle p ∧ q.Assert s.db

/-- The other calls keep the locks of a call, the members and the messages. -/
structure Rely (x : Externals) (p : ℕ) (s s' : Store) : Prop where
  pg : (discipline x).Rely p s.base.pg s'.base.pg
  members : s'.db.members = s.db.members
  messages : ∀ m ∈ s.db.messages, m ∈ s'.db.messages

theorem OwnRead.stable {q : Send} (h : OwnRead p s.base.pg q) (hr : Rely x p s s') :
    OwnRead p s'.base.pg q := by
  cases q with
  | commit a msg =>
    rcases h with h | ⟨r,hmem,hu,hc,h⟩
    · exact .inl (hr.pg.pending.trans h)
    · exact .inr ⟨r,by rw [hr.members]; exact hmem,hu,hc,hr.pg.pending.trans h⟩
  | _ => trivial

theorem MarkRead.Assert.stable {q : MarkRead} (h : q.Assert s.db) (hr : Rely x p s s') :
    q.Assert s'.db := by
  cases q with
  | update u c m i n =>
    obtain ⟨⟨r,hmem,hrow⟩,t,ht,hmsg⟩ := h
    exact ⟨⟨r,by rw [hr.members]; exact hmem,hrow⟩,t,hr.messages t ht,hmsg⟩
  | _ => trivial

theorem Call.Assert.stable {q : Call} (h : q.Assert p s) (hr : Rely x p s s') : q.Assert p s' := by
  cases q with
  | send q => exact ⟨Send.Assert.stable h.1 hr.pg,OwnRead.stable h.2 hr⟩
  | worker q => exact hr.pg.idle h
  | markRead q => exact ⟨hr.pg.idle h.1,h.2.stable hr⟩

/-! ### The step of a send -/

theorem mem_members {r : MembershipRow} (h : r ∈ d.memberships) : r.clearRead ∈ d.members :=
  List.mem_map_of_mem h

theorem of_mem_members {r : MembershipRow} (h : r ∈ d.members) :
    ∃ r' ∈ d.memberships, r'.id = r.id ∧ r'.userId = r.userId ∧ r'.channelId = r.channelId := by
  obtain ⟨r',hr',rfl⟩ := List.mem_map.mp h
  exact ⟨r',hr',rfl,rfl,rfl⟩

theorem applyAll_writes (a : SendAttempt) (msg : MessageRow) (db : Db) :
    (applyAll (Send.writes a msg) db).memberships = db.memberships ∧
    (applyAll (Send.writes a msg) db).messages = db.messages++[msg] :=
  ⟨rfl,rfl⟩

/-- The commit of a send as a change of the watermarks. -/
theorem forward_of_sent {a : SendAttempt} {msg : MessageRow} (hm : Marked pg.db)
    (hi : Integrity (pg.view p)) (hc : msg.channelId = a.input.channelId)
    (hsent : Sent msg pg.db (pg.view p)) (hread : OwnRead p pg (.commit a msg)) :
    Forward pg.db (pg.view p) := by
  have hpos : 0 < msg.sequenceNumber := by
    rw [hsent.number]
    omega
  have hnew : msg ∈ (pg.view p).messages := by
    rw [hsent.messages]
    simp
  refine ⟨hi,hsent.members,⟨[msg],hsent.messages⟩,fun t ht => ?_,?_⟩
  · rw [hsent.messages] at ht
    rcases List.mem_append.mp ht with ht | ht
    · exact hm.positive t ht
    · obtain rfl := List.mem_singleton.mp ht
      exact hpos
  · rcases hread with hp | ⟨r,hr,_,hrc,hp⟩
    · refine .inl ?_
      rw [Pg.view,hp]
      rfl
    · obtain ⟨r',hr',hid,_,hrc'⟩ := of_mem_members hr
      have hchannel : msg.channelId = r'.channelId := by rw [hrc',hrc,hc]
      refine .inr ⟨r',hr',msg,hnew,hchannel,?_,?_⟩
      · have hle := hm.seqOf_le hr'
        rw [hsent.number,hchannel]
        omega
      · rw [hid,Pg.view,hp,applyAll_append]
        rfl

/-- Only the statement on the sender's row leads to the commit. -/
theorem Send.step_commit {q : Send} {w w' : World} {a : SendAttempt} {msg : MessageRow}
    (h : q.step x p ch w = some (.commit a msg,w')) : q = .lastRead a msg := by
  have hedge := Send.edge h
  generalize hq : Send.commit a msg = q' at hedge
  cases hedge with
  | read =>
    obtain ⟨rfl,rfl⟩ := Send.commit.inj hq
    rfl
  | snapshot => 
    unfold Send.joinLookup at hq
    split at hq <;> simp at hq
  | members => 
    unfold Send.joinLookup at hq
    split at hq <;> simp at hq
  | _ => simp at hq

/-! ### What a step does -/

/-- A step of call `p` moves the watermarks forward and respects the locks of the others. -/
structure Progress (x : Externals) (p : ℕ) (pg pg' : Postgres) : Prop where
  sound : pg'.Sound
  guarantee : (discipline x).Guarantee p pg pg'
  forward : Forward pg.db pg'.db

namespace Progress

theorem refl (hs : pg.Sound) (hm : Marked pg.db) : Progress x p pg pg :=
  ⟨hs,.refl p pg,.refl hm⟩

theorem inv (h : Progress x p pg pg') (hm : Marked pg.db) : pg'.Sound ∧ Marked pg'.db :=
  ⟨h.sound,h.forward.marked hm⟩

theorem rely {r : ℕ} {s s' : Store} (h : Progress x p s.base.pg s'.base.pg) (hr : r ≠ p) :
    Rely x r s s' :=
  ⟨h.guarantee r hr,h.forward.members,fun _ => h.forward.mem_messages⟩

end Progress

theorem Send.ownRead_next {q q' : Send} {w w' : World} (h : q.Assert p w.pg)
    (hq : q.step x p ch w = some (q',w')) : OwnRead p w'.pg q' := by
  cases q' with
  | commit a msg =>
    obtain rfl := Send.step_commit hq
    obtain ⟨hopen,_⟩ := h
    simp only [Send.step] at hq
    split at hq
    · simp at hq
    · obtain ⟨pg',hst,_,rfl⟩ := Send.own_plain hq
      unfold Send.markOwnRead at hst
      split at hst
      · obtain rfl := Option.some.inj hst
        exact .inl hopen.pending
      · rename_i r hrow
        obtain ⟨hdb,hp,_,_⟩ := Pg.statement_spec hst
        obtain ⟨hmem,hu,hc⟩ := Db.of_membership? hrow
        rw [hopen.view,(applyAll_writes a msg w.pg.db).1] at hmem
        refine .inr ⟨r.clearRead,?_,hu,hc,?_⟩
        · rw [hdb]
          exact mem_members hmem
        · rw [hp,hopen.pending]
          rfl
  | _ => trivial

/-- The step of a send. -/
theorem Send.progress {q q' : Send} {w w' : World} (hs : w.pg.Sound) (hm : Marked w.pg.db)
    (h : q.Assert p w.pg) (hread : OwnRead p w.pg q) (hq : q.step x p ch w = some (q',w')) :
    Progress x p w.pg w'.pg ∧ q'.Assert p w'.pg ∧ OwnRead p w'.pg q' := by
  have hsane : Sane w.pg := ⟨hs,hm.integrity⟩
  obtain ⟨hadv,hass⟩ := Send.own hsane h hq
  refine ⟨⟨hadv.sound,hadv.guarantee,?_⟩,hass,Send.ownRead_next h hq⟩
  rcases hadv.change with he | hcommit
  · rw [he]
    exact .refl hm
  · cases q with
    | commit a msg =>
      have hview : w'.pg.db = w.pg.view p := by
        simp only [Send.step] at hq
        split at hq
        · obtain ⟨_,rfl⟩ := Prod.mk.inj (Option.some.inj hq)
          exact absurd rfl (hcommit.fresh msg (by rw [hcommit.messages]; simp))
        · obtain ⟨_,rfl⟩ := Prod.mk.inj (Option.some.inj hq)
          rfl
      obtain ⟨_,_,_,hnum⟩ := h
      have hchannel : msg.channelId = a.input.channelId := by
        rw [hnum.row]
        rfl
      rw [hview] at hcommit ⊢
      exact forward_of_sent hm ((Transition.sent msg hcommit).integrity hm.integrity) hchannel hcommit
        hread
    | _ => exact hcommit.elim

/-! ### The step of a `markRead` -/

/-- The steps of `markRead`, with the store after each. -/
inductive MarkRead.Edge (p : ℕ) (ch : Choice) (s : Store) : MarkRead → MarkRead → Store → Prop
  | refused {u c m} (err) : Edge p ch s (.select u c m) (.failed err) s
  | behind {u c m r t} (hr : s.db.membership? u c = some r) (ht : target? s.db c m = some t) :
      Edge p ch s (.select u c m) (.update u c m r.id t.sequenceNumber) s
  | ahead {u c m} : Edge p ch s (.select u c m) (.reset u c m false) s
  | abort {u c m i n} (err) : Edge p ch s (.update u c m i n) (.failed err) s
  | updated {u c m i n pg adv} (h : advanceRead s.base.pg p i m n = some (pg,adv)) :
      Edge p ch s (.update u c m i n) (.reset u c m adv) { s with base := { s.base with pg := pg } }
  | resetting {u c m} : Edge p ch s (.reset u c m true) (.insert u c m)
      { s with base := (Effect.unless ch.fail (.resetUnread u c)).apply s.base }
  | resetOnly {u c m} : Edge p ch s (.reset u c m false) (.done u c m false)
      { s with base := (Effect.unless ch.fail (.resetUnread u c)).apply s.base }
  | lost {u c m} (err) : Edge p ch s (.insert u c m) (.failed err) s
  | inserted {u c m reads} (hadd : ∀ e ∈ s.messageReads, e ∈ reads) (hin : (m,u) ∈ reads) :
      Edge p ch s (.insert u c m) (.emit u c m) { s with messageReads := reads }
  | emitted {u c m} : Edge p ch s (.emit u c m) (.done u c m true)
      { s with receipts := s.receipts++[⟨p,u,c,m⟩] }

theorem MarkRead.edge {q q' : MarkRead} (hq : q.step p ch s = some (q',s')) :
    MarkRead.Edge p ch s q q' s' := by
  cases q with
  | select u c m =>
    simp only [step] at hq
    split at hq
    · obtain ⟨rfl,rfl⟩ := Prod.mk.inj (Option.some.inj hq)
      exact .refused _
    · split at hq
      · obtain ⟨rfl,rfl⟩ := Prod.mk.inj (Option.some.inj hq)
        exact .refused _
      · rename_i r hr
        split at hq
        · obtain ⟨rfl,rfl⟩ := Prod.mk.inj (Option.some.inj hq)
          exact .refused _
        · rename_i t ht
          split at hq <;> obtain ⟨rfl,rfl⟩ := Prod.mk.inj (Option.some.inj hq)
          · exact .behind hr ht
          · exact .ahead
  | update u c m i n =>
    simp only [step] at hq
    split at hq
    · obtain ⟨rfl,rfl⟩ := Prod.mk.inj (Option.some.inj hq)
      exact .abort _
    · obtain ⟨⟨pg,adv⟩,hu,he⟩ := Option.map_eq_some_iff.mp hq
      obtain ⟨rfl,rfl⟩ := Prod.mk.inj he
      exact .updated hu
  | reset u c m adv =>
    obtain ⟨rfl,rfl⟩ := Prod.mk.inj (Option.some.inj hq)
    have hstore : (if ch.fail = true then s else { s with base := { s.base with
        redis := s.base.redis.resetUnread u c } }) =
        { s with base := (Effect.unless ch.fail (.resetUnread u c)).apply s.base } := by
      cases ch.fail <;> rfl
    rw [hstore]
    cases adv with
    | true => exact .resetting
    | false => exact .resetOnly
  | insert u c m =>
    simp only [step] at hq
    split at hq <;> obtain ⟨rfl,rfl⟩ := Prod.mk.inj (Option.some.inj hq)
    · exact .lost _
    · split
      · rename_i hin
        exact .inserted (fun _ h => h) hin
      · exact .inserted (fun _ h => List.mem_append_left _ h) (by simp)
  | emit u c m =>
    obtain ⟨rfl,rfl⟩ := Prod.mk.inj (Option.some.inj hq)
    exact .emitted
  | done u c m adv => simp [step] at hq
  | failed err => simp [step] at hq

theorem Marked.not_rises (hm : Marked d) (i : Uuid) : ¬ Rises d d i := by
  rintro ⟨r,hr,r',hr',rfl,hid,hlt⟩
  obtain rfl := hm.row_unique hr' hr hid
  exact absurd hlt (lt_irrefl _)

theorem forward_setLastRead (hm : Marked d) {r : MembershipRow} (hr : r ∈ d.memberships)
    {t : MessageRow} (ht : t ∈ d.messages) (hc : t.channelId = r.channelId)
    (hlt : seqOf d r < t.sequenceNumber) : Forward d (d.apply (.setLastRead r.id t.id)) := by
  have hmembers : (d.apply (.setLastRead r.id t.id)).members = d.members := by
    simp [Db.members,Db.apply,Function.comp_def]
  exact ⟨integrity_of_members hm.integrity rfl rfl hmembers,hmembers,⟨[],by simp [Db.apply]⟩,hm.positive,
    .inr ⟨r,hr,t,ht,hc,hlt,rfl⟩⟩

theorem Forward.rises (h : Forward d e) {r : MembershipRow} (hr : r ∈ d.memberships) {t : MessageRow}
    (ht : t ∈ e.messages) (hlt : seqOf d r < t.sequenceNumber)
    (he : e.memberships = d.memberships.map (·.setLastRead r.id t.id)) : Rises d e r.id := by
  refine ⟨r,hr,r.setLastRead r.id t.id,?_,rfl,by simp,?_⟩
  · rw [he]
    exact List.mem_map_of_mem hr
  · simpa [seqOf,setLastRead_self,h.integrity.message?_of_mem ht] using hlt

/-- The `UPDATE` moves the watermark forward or not at all, and knows which. -/
theorem advanceRead_spec {i m u c : Uuid} {n : ℕ} {adv : Bool} (hs : pg.Sound) (hm : Marked pg.db)
    (h : MarkRead.Assert pg.db (.update u c m i n)) (hu : advanceRead pg p i m n = some (pg',adv)) :
    Progress x p pg pg' ∧ (pg.Idle p → pg'.Idle p) ∧ (adv = true ↔ Rises pg.db pg'.db i) := by
  obtain ⟨⟨r₀,hr₀,hid₀,_,hc₀⟩,t,ht,rfl,hct,rfl⟩ := h
  obtain ⟨r₁,hr₁,hid₁,_,hc₁⟩ := of_mem_members hr₀
  unfold advanceRead at hu
  split at hu
  · rename_i hnone
    have hfind := List.find?_eq_none.mp hnone r₁ hr₁
    simp [hid₁,hid₀] at hfind
  · rename_i r hfind
    have hr := List.mem_of_find?_eq_some hfind
    have hid : r.id = i := by simpa using List.find?_some hfind
    obtain rfl := hm.row_unique hr hr₁ (hid.trans (hid₀.symm.trans hid₁.symm))
    split at hu
    · rename_i hbehind
      have hlt := (hm.behind_iff hr (hm.positive t ht)).mp hbehind
      obtain ⟨pg'',hauto,he⟩ := Option.map_eq_some_iff.mp hu
      obtain ⟨rfl,rfl⟩ := Prod.mk.inj he
      have hchannel : t.channelId = r.channelId := by rw [hct,hc₁,hc₀]
      have hfwd := forward_setLastRead hm hr ht hchannel hlt
      rw [hid] at hfwd
      have hkeeps : ∀ l, keeps x l pg.db (pg.db.apply (.setLastRead i t.id)) :=
        keeps_of_members (e := pg.db.apply (.setLastRead i t.id)) rfl rfl hfwd.members
      have hguar := Discipline.Guarantee.auto (R := discipline x) hauto (fun l => .inl (hkeeps l))
        (grows_of_members rfl rfl)
      obtain ⟨_,rfl⟩ := Pg.auto_eq hauto
      refine ⟨⟨hs,hguar,hfwd⟩,fun hi => ⟨hi.pending,hi.locks⟩,fun _ => ?_,fun _ => rfl⟩
      have hrises := hfwd.rises hr ht hlt (by rw [hid]; rfl)
      rwa [hid] at hrises
    · obtain ⟨rfl,rfl⟩ := Prod.mk.inj (Option.some.inj hu)
      exact ⟨.refl hs hm,id,by simp,fun hrise => absurd hrise (hm.not_rises i)⟩

theorem target_spec {c m : Uuid} {t : MessageRow} (h : target? d c m = some t) :
    t ∈ d.messages ∧ t.id = m ∧ t.channelId = c := by
  obtain ⟨hmsg,hc⟩ := Option.filter_eq_some_iff.mp h
  obtain ⟨ht,hid⟩ := Db.of_message? hmsg
  exact ⟨ht,hid,by simpa using hc⟩

theorem MarkRead.assert_select {u c m : Uuid} {r : MembershipRow} {t : MessageRow}
    (hr : d.membership? u c = some r) (ht : target? d c m = some t) :
    MarkRead.Assert d (.update u c m r.id t.sequenceNumber) := by
  obtain ⟨hmem,hu,hc⟩ := Db.of_membership? hr
  obtain ⟨htm,hid,htc⟩ := target_spec ht
  exact ⟨⟨r.clearRead,mem_members hmem,rfl,hu,hc⟩,t,htm,hid,htc,rfl⟩

/-- The step of a `markRead`. -/
theorem MarkRead.progress {q q' : MarkRead} (hs : s.base.pg.Sound) (hm : Marked s.db)
    (hi : s.base.pg.Idle p) (h : q.Assert s.db) (hq : q.step p ch s = some (q',s')) :
    Progress x p s.base.pg s'.base.pg ∧ s'.base.pg.Idle p ∧ q'.Assert s'.db := by
  cases MarkRead.edge hq with
  | behind hr ht => exact ⟨.refl hs hm,hi,assert_select hr ht⟩
  | updated hu =>
    obtain ⟨hprog,hidle,_⟩ := advanceRead_spec (x := x) hs hm h hu
    exact ⟨hprog,hidle hi,trivial⟩
  | resetting =>
    simp only [Effect.apply_pg]
    exact ⟨.refl hs hm,hi,trivial⟩
  | resetOnly =>
    simp only [Effect.apply_pg]
    exact ⟨.refl hs hm,hi,trivial⟩
  | _ => exact ⟨.refl hs hm,hi,trivial⟩

/-! ### Runs -/

theorem Call.progress {q q' : Call} (hs : s.base.pg.Sound) (hm : Marked s.db) (h : q.Assert p s)
    (hq : q.step x p ch s = some (q',s')) : Progress x p s.base.pg s'.base.pg ∧ q'.Assert p s' := by
  cases q with
  | send q =>
    obtain ⟨⟨t,w⟩,ht,he⟩ := Option.map_eq_some_iff.mp hq
    obtain ⟨rfl,rfl⟩ := Prod.mk.inj he
    exact Send.progress hs hm h.1 h.2 ht
  | worker q =>
    obtain ⟨⟨t,w⟩,ht,he⟩ := Option.map_eq_some_iff.mp hq
    obtain ⟨rfl,rfl⟩ := Prod.mk.inj he
    have hpg : w.pg = s.base.pg := Worker.step_pg ht
    simp only [hpg,Assert]
    exact ⟨.refl hs hm,h⟩
  | markRead q =>
    obtain ⟨⟨t,w⟩,ht,he⟩ := Option.map_eq_some_iff.mp hq
    obtain ⟨rfl,rfl⟩ := Prod.mk.inj he
    exact MarkRead.progress hs hm h.1 h.2 ht

theorem Call.Initial.assert {q : Call} (h : q.Initial) (hi : s.base.pg.Idle p) : q.Assert p s := by
  cases h with
  | send input e => exact ⟨hi,trivial⟩
  | worker => exact hi
  | markRead u c m => exact ⟨hi,trivial⟩

theorem Rely.refl (s : Store) (p : ℕ) : Rely x p s s := ⟨Discipline.Rely.refl p _,rfl,fun _ h => h⟩

def outline (x : Externals) : Outline (reading x) Arrives where
  inv s := s.base.pg.Sound ∧ Marked s.db
  rely := Rely x
  idle p s := s.base.pg.Idle p
  holds p q s := q.Assert p s
  spawn hq _ hi := Call.Initial.assert hq hi
  own _ hs h hq := by
    obtain ⟨hprog,hass⟩ := Call.progress hs.1 hs.2 h hq
    exact ⟨hprog.inv hs.2,hass,fun r hr => hprog.rely hr⟩
  env {_ e _} _ hs he := by
    obtain rfl := Option.some.inj he
    have hpg := Event.apply_pg e
    refine ⟨?_,fun r => ?_⟩
    · simp only [Store.db,hpg]
      exact hs
    · refine ⟨?_,?_,?_⟩
      · simp only [hpg]
        exact Discipline.Rely.refl r _
      · simp only [Store.db,hpg]
      · simp only [Store.db,hpg]
        exact fun _ h => h
  stable _ _ hr h := h.stable hr
  idle_stable hr hi := hr.pg.idle hi

theorem Starts.valid (hw : Starts s) {c : Config Store Call} (h : Run (reading x) Arrives ⟨s,[]⟩ c) :
    (outline x).Valid c := by
  refine (outline x).sound ⟨?_,hw.marked⟩ (fun p => ⟨hw.pending p,?_⟩) h
  · intro k hk
    rw [hw.locks] at hk
    simp at hk
  · rw [hw.locks]
    simp

/-- Every step moves the watermarks forward. -/
theorem forward_next {a b : Config Store Call} {l : Label Call Choice Event} (hv : (outline x).Valid a)
    (hn : (reading x).next a l = some b) : Forward a.world.db b.world.db := by
  cases l with
  | spawn q =>
    obtain rfl := Option.some.inj hn
    exact .refl hv.inv.2
  | run p ch =>
    obtain ⟨q,q',s,hq,hs,rfl⟩ := (reading x).next_run hn
    exact (Call.progress hv.inv.1 hv.inv.2 (hv.holds p q hq) hs).1.forward
  | env e =>
    obtain ⟨s,hs,rfl⟩ := (reading x).next_env hn
    obtain rfl := Option.some.inj hs
    simp only [Store.db,Event.apply_pg]
    exact .refl hv.inv.2

/-- Every row is still there, and its watermark stands where it did or further on. -/
def Onward (d e : Db) : Prop :=
  ∀ r ∈ d.memberships, ∃ r' ∈ e.memberships, r'.id = r.id ∧ r'.userId = r.userId ∧
    r'.channelId = r.channelId ∧ seqOf d r ≤ seqOf e r'

theorem Onward.trans {f : Db} (h : Onward d e) (h' : Onward e f) : Onward d f := by
  intro r hr
  obtain ⟨r',hr',hid,hu,hc,hle⟩ := h r hr
  obtain ⟨r'',hr'',hid',hu',hc',hle'⟩ := h' r' hr'
  exact ⟨r'',hr'',hid'.trans hid,hu'.trans hu,hc'.trans hc,hle.trans hle'⟩

theorem Forward.onward (h : Forward d e) (hm : Marked d) : Onward d e := by
  intro r hr
  have hrow : ∃ r' ∈ e.memberships, r'.id = r.id ∧ r'.userId = r.userId ∧ r'.channelId = r.channelId := by
    rcases h.rows with he | ⟨r₀,_,t,_,_,_,he⟩
    · exact ⟨r,by rwa [he],rfl,rfl,rfl⟩
    · exact ⟨r.setLastRead r₀.id t.id,by rw [he]; exact List.mem_map_of_mem hr,by simp,by simp,by simp⟩
  obtain ⟨r',hr',hid,hu,hc⟩ := hrow
  exact ⟨r',hr',hid,hu,hc,h.mono hm hr hr' hid.symm⟩

theorem onward_run {c : Config Store Call} {c' : Config Store Call} (hv : (outline x).Valid c)
    (h : Run (reading x) Arrives c c') : Onward c.world.db c'.world.db := by
  have hboth : (outline x).Valid c' ∧ Onward c.world.db c'.world.db := by
    refine h.invariant (I := fun b => (outline x).Valid b ∧ Onward c.world.db b.world.db)
      ⟨hv,fun r hr => ⟨r,hr,rfl,rfl,rfl,le_rfl⟩⟩ ?_
    intro a l b _ ha hl hn
    exact ⟨ha.1.next _ hl hn,ha.2.trans ((forward_next ha.1 hn).onward ha.1.inv.2)⟩
  exact hboth.2

end ZevraServer.Reading
