import ZevraServer.ReadReceipts
import ZevraServer.History

/-!
# Read messages and unread counters

The watermark of a member is moved by `markRead`, which also resets the member's counter, and
by the member's own `send`, which does not. The counter is incremented by the delivery jobs,
which may run after the message was read. Where neither happens too early or too late, a
member who has read the newest message has nothing unread.
-/

namespace ZevraServer.Reading

open ReadCommitted Interleaving

/-! ### What a client sees -/

/-- `getUnreadCounts` with Redis available. -/
def getUnreadCounts (redis : Redis) (userId : Uuid) (channelIds : List Uuid) : List (Uuid × ℕ) :=
  channelIds.map fun c => (c,redis.unread userId c)

/-- `getInbox` answers with these items while nothing else changes the world. -/
def InboxAnswers (w : World) (u : Uuid) (items : List InboxItem) : Prop :=
  Relation.ReflTransGen (fun g g' : GetInbox => ∃ ch, g.step ch w = some (g',w)) (.memberships u)
    (.done u items)

/-- The watermark of a row is the newest message of its channel. -/
def AtNewest (db : Db) (r : MembershipRow) : Prop :=
  ∃ m ∈ db.messagesOf r.channelId, r.lastReadMessageId = some m.id ∧
    ∀ t ∈ db.messagesOf r.channelId, t.sequenceNumber ≤ m.sequenceNumber

/-- A `markRead` is about to reset the counter. -/
def Resetting (c : Config Store Call) (u channel : Uuid) : Prop :=
  c.Any fun q => ∃ m adv, q = .markRead (.reset u channel m adv)

/-- The counter of the row is zero or about to be. -/
def NothingUnread (c : Config Store Call) (u channel : Uuid) : Prop :=
  c.world.base.redis.unread u channel = 0 ∨ Resetting c u channel

/-- A step of a call outside Postgres. -/
def Call.effect (ch : Choice) : Call → Effect
  | .send q => q.effect ch
  | .worker q => q.effect ch
  | .markRead (.reset u c _ _) => .unless ch.fail (.resetUnread u c)
  | .markRead _ => .nothing

/-- Redis takes the resets; a `send` commits only while its sender has nothing unread in the
channel; and a message is counted only for members who have not read the newest one. -/
def Timely (a : Config Store Call) (l : Label Call Choice Event) : Prop :=
  Arrives a l ∧ ∀ (p : ℕ) ch q, l = .run p ch → a.pool[p]? = some q →
    (∀ u c m adv, q = .markRead (.reset u c m adv) → ch.fail = false) ∧
    (∀ s msg, q = .send (.commit s msg) → NothingUnread a s.input.userId s.input.channelId) ∧
    (∀ ids c, q.effect ch = .countUnread ids c → ∀ r ∈ a.world.db.memberships, r.channelId = c →
      r.userId ∈ ids → AtNewest a.world.db r → Resetting a r.userId c)

/-- Who has read the newest message of a channel has nothing unread there. -/
def Settled (c : Config Store Call) : Prop :=
  ∀ r ∈ c.world.db.memberships, AtNewest c.world.db r → NothingUnread c r.userId r.channelId

variable {x : Externals} {p : ℕ} {ch : Choice} {s s' : Store} {d e : Db} {a b : Config Store Call}
  {l : Label Call Choice Event} {w w' : World} {u c : Uuid}

/-! ### Counters -/

/-- Only the two commands on it change the counter. -/
theorem Effect.unread (f : Effect) (w : World) (u c : Uuid) : (f.apply w).redis.unread u c =
    match f with
    | .countUnread ids c' => if c = c' then w.redis.unread u c+ids.count u else w.redis.unread u c
    | .resetUnread u' c' => if u = u' ∧ c = c' then 0 else w.redis.unread u c
    | _ => w.redis.unread u c := by
  cases f with
  | setMembers c' ids =>
    simp only [Effect.apply,Redis.setMembers]
    split <;> rfl
  | _ => rfl

theorem Event.unread (f : Event) (w : World) (u c : Uuid) :
    (f.apply w).redis.unread u c = w.redis.unread u c := by
  cases f <;> rfl

theorem MarkRead.step_base {q q' : MarkRead} (hq : q.step p ch s = some (q',s')) :
    AfterStep s.base s'.base ((Call.markRead q).effect ch) := by
  cases MarkRead.edge hq with
  | updated hu => exact .of_pg rfl
  | resetting => exact .of_eq rfl
  | resetOnly => exact .of_eq rfl
  | _ => exact .of_eq rfl

theorem AfterStep.unread {f : Effect} (h : AfterStep w w' f) (u c : Uuid) :
    w'.redis.unread u c = (f.apply w).redis.unread u c := by
  rw [h,Effect.unread,Effect.unread]

theorem Call.step_base {q q' : Call} (hq : q.step x p ch s = some (q',s')) :
    AfterStep s.base s'.base (q.effect ch) := by
  cases q with
  | send q =>
    obtain ⟨⟨t,v⟩,ht,he⟩ := Option.map_eq_some_iff.mp hq
    obtain ⟨_,rfl⟩ := Prod.mk.inj he
    exact Send.step_effect ht
  | worker q =>
    obtain ⟨⟨t,v⟩,ht,he⟩ := Option.map_eq_some_iff.mp hq
    obtain ⟨_,rfl⟩ := Prod.mk.inj he
    exact .of_eq (Worker.step_effect ht)
  | markRead q =>
    obtain ⟨⟨t,v⟩,ht,he⟩ := Option.map_eq_some_iff.mp hq
    obtain ⟨_,rfl⟩ := Prod.mk.inj he
    exact MarkRead.step_base ht

/-! ### Which watermark a step moves -/

/-- A step moves no watermark, or the one of the row `r`, for a `send` that commits or a
`markRead` that goes on to the reset. -/
def Moves (d e : Db) (q q' : Call) : Prop :=
  e.memberships = d.memberships ∨ ∃ r ∈ d.memberships, ∃ j,
    e.memberships = d.memberships.map (·.setLastRead r.id j) ∧
      ((∃ s msg, q = .send (.commit s msg) ∧ s.input.userId = r.userId ∧ s.input.channelId = r.channelId) ∨
        ∃ m adv, q' = .markRead (.reset r.userId r.channelId m adv))

theorem Send.moves {q q' : Send} {w w' : World} (hs : w.pg.Sound) (hm : Marked w.pg.db)
    (h : q.Assert p w.pg) (hread : OwnRead p w.pg q) (hq : q.step x p ch w = some (q',w')) :
    Moves w.pg.db w'.pg.db (.send q) (.send q') := by
  obtain ⟨hadv,_⟩ := Send.own ⟨hs,hm.integrity⟩ h hq
  rcases hadv.change with he | hcommit
  · exact .inl (by rw [he])
  · cases q with
    | commit a msg =>
      simp only [Send.step] at hq
      split at hq <;> obtain ⟨_,rfl⟩ := Prod.mk.inj (Option.some.inj hq)
      · exact .inl rfl
      · rcases hread with hp | ⟨r,hr,hu,hc,hp⟩
        · refine .inl ?_
          rw [Pg.commit_db,Pg.view,hp]
          rfl
        · obtain ⟨r',hr',hid,hu',hc'⟩ := of_mem_members hr
          refine .inr ⟨r',hr',msg.id,?_,.inl ⟨a,msg,rfl,hu.symm.trans hu'.symm,hc.symm.trans hc'.symm⟩⟩
          rw [Pg.commit_db,Pg.view,hp,applyAll_append,hid]
          rfl
    | _ => exact hcommit.elim

theorem MarkRead.moves {q q' : MarkRead} (h : q.Assert s.db) (hq : q.step p ch s = some (q',s')) :
    Moves s.db s'.db (.markRead q) (.markRead q') := by
  cases MarkRead.edge hq with
  | updated hu =>
    rename_i u c m i n pg' adv
    obtain ⟨⟨r₀,hr₀,hid₀,hu₀,hc₀⟩,_⟩ := h
    obtain ⟨r,hr,hid,hru,hrc⟩ := of_mem_members hr₀
    unfold advanceRead at hu
    split at hu
    · obtain ⟨rfl,_⟩ := Prod.mk.inj (Option.some.inj hu)
      exact .inl rfl
    · split at hu
      · obtain ⟨pg'',hauto,he⟩ := Option.map_eq_some_iff.mp hu
        obtain ⟨rfl,rfl⟩ := Prod.mk.inj he
        obtain ⟨_,rfl⟩ := Pg.auto_eq hauto
        refine .inr ⟨r,hr,m,?_,.inr ⟨m,true,by rw [hru,hu₀,hrc,hc₀]⟩⟩
        rw [hid,hid₀]
        rfl
      · obtain ⟨rfl,_⟩ := Prod.mk.inj (Option.some.inj hu)
        exact .inl rfl
  | resetting => exact .inl (by simp only [Store.db,Effect.apply_pg])
  | resetOnly => exact .inl (by simp only [Store.db,Effect.apply_pg])
  | _ => exact .inl rfl

theorem Call.moves {q q' : Call} (hs : s.base.pg.Sound) (hm : Marked s.db) (h : q.Assert p s)
    (hq : q.step x p ch s = some (q',s')) : Moves s.db s'.db q q' := by
  cases q with
  | send q =>
    obtain ⟨⟨t,w⟩,ht,he⟩ := Option.map_eq_some_iff.mp hq
    obtain ⟨rfl,rfl⟩ := Prod.mk.inj he
    exact Send.moves hs hm h.1 h.2 ht
  | worker q =>
    obtain ⟨⟨t,w⟩,ht,he⟩ := Option.map_eq_some_iff.mp hq
    obtain ⟨rfl,rfl⟩ := Prod.mk.inj he
    have hpg : w.pg = s.base.pg := Worker.step_pg ht
    exact .inl (by simp only [Store.db,hpg])
  | markRead q =>
    obtain ⟨⟨t,w⟩,ht,he⟩ := Option.map_eq_some_iff.mp hq
    obtain ⟨rfl,rfl⟩ := Prod.mk.inj he
    exact MarkRead.moves h.2 ht

/-- A row whose watermark is the newest message of the later tables and that was there before had
read the newest message then. -/
theorem AtNewest.before {r : MembershipRow} (hf : Forward d e) (hm : Marked d) (hr : r ∈ d.memberships)
    (h : AtNewest e r) : AtNewest d r := by
  obtain ⟨m,hmem,hlast,hmax⟩ := h
  obtain ⟨hmem,_⟩ := List.mem_filter.mp hmem
  obtain ⟨t,ht,hid,hc⟩ := hm.owned r hr m.id hlast
  obtain rfl := hf.integrity.message_unique (hf.mem_messages ht) hmem hid
  refine ⟨t,List.mem_filter.mpr ⟨ht,by simpa using hc⟩,hlast,fun t' ht' => hmax t' ?_⟩
  obtain ⟨ht',hc'⟩ := List.mem_filter.mp ht'
  exact List.mem_filter.mpr ⟨hf.mem_messages ht',hc'⟩

/-! ### Runs -/

/-- A reset that is about to happen still is, unless the step makes the counter zero. -/
theorem Resetting.next {q q' : Call} (hr : Resetting a u c) (hp : a.pool[p]? = some q)
    (hs : q.step x p ch a.world = some (q',s'))
    (hok : ∀ u c m adv, q = .markRead (.reset u c m adv) → ch.fail = false) :
    NothingUnread ⟨s',a.pool.set p q'⟩ u c := by
  rcases hr.beside hp with hbeside | ⟨m,adv,rfl⟩
  · exact .inr hbeside.set
  · refine .inl ?_
    show s'.base.redis.unread u c = 0
    rw [AfterStep.unread (Call.step_base hs),Effect.unread]
    simp [Call.effect,Effect.unless,hok u c m adv rfl]

/-- Nothing unread stays so, if the step counts nothing for the member. -/
theorem NothingUnread.next {q q' : Call} (h : NothingUnread a u c) (hp : a.pool[p]? = some q)
    (hs : q.step x p ch a.world = some (q',s'))
    (hok : ∀ u c m adv, q = .markRead (.reset u c m adv) → ch.fail = false)
    (hcount : ∀ ids, q.effect ch = .countUnread ids c → u ∈ ids → Resetting a u c) :
    NothingUnread ⟨s',a.pool.set p q'⟩ u c := by
  rcases h with h | h
  · by_cases hids : ∃ ids, q.effect ch = .countUnread ids c ∧ u ∈ ids
    · obtain ⟨ids,he,hu⟩ := hids
      exact (hcount ids he hu).next hp hs hok
    · refine .inl ?_
      show s'.base.redis.unread u c = 0
      rw [AfterStep.unread (Call.step_base hs),Effect.unread]
      split
      · rename_i ids c' he
        split
        · rename_i hc
          subst hc
          have hnot : u ∉ ids := fun hu => hids ⟨ids,he,hu⟩
          rw [h,List.count_eq_zero_of_not_mem hnot]
        · exact h
      · split
        · rfl
        · exact h
      · exact h
  · exact h.next hp hs hok

theorem Settled.run {q q' : Call} (hv : (outline x).Valid a) (h : Settled a) (hl : Timely a (.run p ch))
    (hp : a.pool[p]? = some q) (hs : q.step x p ch a.world = some (q',s')) :
    Settled ⟨s',a.pool.set p q'⟩ := by
  obtain ⟨hreset,hcommit,hcount⟩ := hl.2 p ch q rfl hp
  have hfwd := (Call.progress hv.inv.1 hv.inv.2 (hv.holds p q hp) hs).1.forward
  have hm := hv.inv.2
  intro r' hr' hnew
  have hstill : r' ∈ a.world.db.memberships → NothingUnread ⟨s',a.pool.set p q'⟩ r'.userId r'.channelId := by
    intro hr
    have hold := hnew.before hfwd hm hr
    exact (h r' hr hold).next hp hs hreset fun ids he hu => hcount ids _ he r' hr rfl hu hold
  rcases Call.moves hv.inv.1 hm (hv.holds p q hp) hs with he | ⟨r,hr,j,he,hwho⟩
  · exact hstill (by rw [← he]; exact hr')
  · have hr'' : r' ∈ s'.db.memberships := hr'
    rw [he] at hr''
    obtain ⟨r₀,hr₀,rfl⟩ := List.mem_map.mp hr''
    by_cases hid : r₀.id = r.id
    · obtain rfl := hm.row_unique hr₀ hr hid
      rw [setLastRead_userId,setLastRead_channelId]
      rcases hwho with ⟨t,msg,rfl,hu,hc⟩ | ⟨m,adv,rfl⟩
      · have hnone := hcommit t msg rfl
        rw [hu,hc] at hnone
        refine hnone.next hp hs hreset fun ids he _ => ?_
        simp [Call.effect,Send.effect] at he
      · exact .inr (Config.Any.of_set hp ⟨m,adv,rfl⟩)
    · rw [setLastRead_of_ne hid] at hstill ⊢
      exact hstill hr₀

theorem Settled.next (hv : (outline x).Valid a) (h : Settled a) (hl : Timely a l)
    (hn : (reading x).next a l = some b) : Settled b := by
  cases l with
  | spawn q =>
    obtain rfl := Option.some.inj hn
    intro r hr hnew
    exact (h r hr hnew).imp id Config.Any.append
  | run p ch =>
    obtain ⟨q,q',s',hp,hs,rfl⟩ := (reading x).next_run hn
    exact h.run hv hl hp hs
  | env f =>
    obtain ⟨s',hs,rfl⟩ := (reading x).next_env hn
    obtain rfl := Option.some.inj hs
    have hdb : (f.apply a.world.base).pg = a.world.base.pg := Event.apply_pg f a.world.base
    intro r hr hnew
    simp only [Store.db,hdb] at hr hnew
    refine (h r hr hnew).imp (fun hzero => ?_) id
    show (f.apply a.world.base).redis.unread r.userId r.channelId = 0
    rw [Event.unread]
    exact hzero

theorem Settled.reached (hw : Starts s) (h₀ : Settled ⟨s,[]⟩) (h : Run (reading x) Timely ⟨s,[]⟩ a) :
    Settled a := by
  refine h.invariant h₀ fun b l c hr hb hl hn => ?_
  exact hb.next (hw.valid (hr.mono fun _ _ hl => hl.1)) hl hn

/-- Every counter the call has read or answers with is zero for the channel. -/
def InboxZero (u c : Uuid) : GetInbox → Prop
  | .memberships v => v = u
  | .gather v _ _ _ unread => v = u ∧ ∀ l, unread = some l → ∀ e ∈ l, e.1 = c → e.2 = 0
  | .done _ items => ∀ item ∈ items, item.channel.id = c → item.unreadCount = 0
  | .failed _ => True

theorem mapGet_zero {unread : List (Uuid × ℕ)} (h : ∀ e ∈ unread, e.1 = c → e.2 = 0) :
    (mapGet unread c).getD 0 = 0 := by
  unfold mapGet
  cases hfind : unread.reverse.find? fun e => decide (e.1 = c) with
  | none => rfl
  | some e =>
    have hmem := List.mem_reverse.mp (List.mem_of_find?_eq_some hfind)
    exact h e hmem (by simpa using List.find?_some hfind)

theorem inboxZero_joinReads {read : List (Uuid × Option Uuid)} {channels : Option (List InboxChannel)}
    {peers : Option (List (Uuid × Uuid))} {unread : Option (List (Uuid × ℕ))}
    (h : ∀ l, unread = some l → ∀ e ∈ l, e.1 = c → e.2 = 0) :
    InboxZero u c (GetInbox.joinReads u read channels peers unread) := by
  unfold GetInbox.joinReads
  split
  · rename_i channels peers unread
    intro item hitem hid
    obtain ⟨channel,_,rfl⟩ := List.mem_map.mp hitem
    have hchannel : channel.id = c := hid
    show (mapGet unread channel.id).getD 0 = 0
    rw [hchannel]
    exact mapGet_zero (h unread rfl)
  · exact ⟨rfl,h⟩

theorem InboxZero.step {g g' : GetInbox} (h : InboxZero u c g) (hzero : w.redis.unread u c = 0)
    (hs : g.step ch w = some (g',w')) : InboxZero u c g' := by
  cases g with
  | memberships v =>
    obtain rfl : v = u := h
    simp only [GetInbox.step] at hs
    split at hs <;> obtain ⟨rfl,_⟩ := Prod.mk.inj (Option.some.inj hs)
    · trivial
    · split
      · simp [InboxZero]
      · exact ⟨rfl,by simp⟩
  | gather v read channels peers unread =>
    obtain ⟨rfl,hread⟩ := h
    simp only [GetInbox.step] at hs
    split at hs <;> split_ifs at hs <;> obtain ⟨rfl,_⟩ := Prod.mk.inj (Option.some.inj hs)
    · trivial
    · exact inboxZero_joinReads hread
    · trivial
    · exact inboxZero_joinReads hread
    · exact inboxZero_joinReads (by simp)
    · refine inboxZero_joinReads ?_
      rintro l hl e he rfl
      obtain rfl := Option.some.inj hl
      obtain ⟨channel,_,rfl⟩ := List.mem_map.mp he
      exact hzero
  | done v items => simp [GetInbox.step] at hs
  | failed err => simp [GetInbox.step] at hs

theorem InboxAnswers.zero {items : List InboxItem} (h : InboxAnswers w u items)
    (hzero : w.redis.unread u c = 0) : ∀ item ∈ items, item.channel.id = c → item.unreadCount = 0 := by
  have hall : ∀ g, Relation.ReflTransGen (fun g g' : GetInbox => ∃ ch, g.step ch w = some (g',w))
      (.memberships u) g → InboxZero u c g := by
    intro g hg
    induction hg with
    | refl => rfl
    | tail _ hs ih =>
      obtain ⟨ch,hs⟩ := hs
      exact ih.step hzero hs
  exact hall _ h

instance (db : Db) (r : MembershipRow) : Decidable (AtNewest db r) :=
  inferInstanceAs (Decidable (∃ m ∈ db.messagesOf r.channelId, r.lastReadMessageId = some m.id ∧
    ∀ t ∈ db.messagesOf r.channelId, t.sequenceNumber ≤ m.sequenceNumber))

/-- A whole `send` of user `u`, with `n` steps after the room snapshot, and the delivery of its
message by a worker. -/
def posting (p : ℕ) (u id : Uuid) (n : ℕ) : List (Label Call Choice Event) :=
  postingAs p u id++.run p otherSide::List.replicate n (.run p calm)++
    [.spawn (.worker .take),.run (p+1) calm,.run (p+1) otherSide,.run (p+1) calm]

end ZevraServer.Reading
