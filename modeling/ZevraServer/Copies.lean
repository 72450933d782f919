import ZevraServer.Edges
import ZevraServer.Pages

/-!
# Copies of a message

The payload of a message is copied from its row into the cache list, the delivery
queue and the pending queues, and on its way it is held by the calls. A step makes no
other copies: what a call holds or answers afterwards it held before, or it read it
from the tables or from one of the three places.
-/

namespace ZevraServer

open ReadCommitted Interleaving

/-- What a reader sees of a message. -/
structure Shown where
  id : Uuid
  encryptedContent : String
  metadata : Option String
  isDeleted : Bool
  deriving DecidableEq, Repr

def MessagePayload.shown (m : MessagePayload) : Shown := ⟨m.id,m.encryptedContent,m.metadata,m.isDeleted⟩

/-- The preview of a channel has no `isDeleted` field. -/
def InboxChannel.shown (c : InboxChannel) : Option Shown :=
  c.lastMessageId.map fun id => ⟨id,c.lastMessageContent.getD "",c.lastMessageMetadata,false⟩

namespace Call

/-- What a call in progress holds, to store it or to answer with it. -/
def carries : Call → List Shown
  | .send (.lookup m _ _ _) => [m.shown]
  | .send (.emit m _ _ _) => [m.shown]
  | .send (.cache m _ _) => [m.shown]
  | .send (.enqueue job) => [job.message.shown]
  | .send (.deliver d) => [d.job.message.shown]
  | .worker (.running d) => [d.job.message.shown]
  | .getPending (.remove _ raw) => raw.map (·.shown)
  | .getMessages (.reactions _ page _) => page.messages.map (·.shown)
  | .getInbox (.gather _ _ (some channels) _ _) => channels.filterMap (·.shown)
  | _ => []

/-- The messages in the response of `getMessages`, `getInbox` and `popPendingMessages`. -/
def answers : Call → List Shown
  | .getMessages (.done _ page) => page.messages.map (·.payload.shown)
  | .getInbox (.done _ items) => items.filterMap (·.channel.shown)
  | .getPending (.done messages _) => messages.map (·.shown)
  | _ => []

end Call

/-- A copy in a pending queue or in the delivery queue. -/
def World.Queues (w : World) (m : MessagePayload) : Prop :=
  (∃ u score, (score,m) ∈ w.redis.pending u) ∨ ∃ job ∈ w.queue, job.message = m

/-- A copy in the cache list of a channel. -/
def World.Caches (w : World) (c : Uuid) (m : MessagePayload) : Prop := .payload m ∈ w.redis.messageCache c

variable {x : Externals} {p : ℕ} {ch : Choice} {w w' : World} {q q' : Call} {m : MessagePayload} {c : Uuid}

/-! ### What a step stores -/

/-- The payload a command puts into Redis or the queue. -/
def Effect.payload : Effect → Option MessagePayload
  | .cacheMessage _ m => some m
  | .addPending _ _ m => some m
  | .enqueue job => some job.message
  | _ => none

theorem Redis.mem_zAdd {a b : ℕ × MessagePayload} {set : List (ℕ × MessagePayload)}
    (h : a ∈ Redis.zAdd b set) : a = b ∨ a ∈ set := by
  rcases (List.mem_orderedInsert _).mp h with h | h
  · exact .inl h
  · exact .inr (List.mem_filter.mp h).1

theorem Effect.apply_queues {f : Effect} (h : (f.apply w).Queues m) : w.Queues m ∨ f.payload = some m := by
  rcases h with ⟨u,score,h⟩ | ⟨job,hj,hm⟩
  · cases f with
    | setMembers c ms =>
      refine .inl (.inl ⟨u,score,?_⟩)
      simp only [Effect.apply,Redis.setMembers] at h
      split at h <;> exact h
    | addPending ids n k =>
      simp only [Effect.apply,Redis.addPendingMessage] at h
      split at h
      · rcases Redis.mem_zAdd h with he | h
        · exact .inr (by rw [(Prod.mk.inj he).2]; rfl)
        · exact .inl (.inl ⟨u,score,h⟩)
      · exact .inl (.inl ⟨u,score,h⟩)
    | removePending v raw =>
      refine .inl (.inl ⟨u,score,?_⟩)
      simp only [Effect.apply,Redis.removePending,Function.update_apply] at h
      split at h
      · rename_i hu
        rw [hu]
        exact (List.mem_filter.mp h).1
      · exact h
    | _ => exact .inl (.inl ⟨u,score,h⟩)
  · cases f with
    | enqueue job' =>
      rcases List.mem_append.mp hj with hj | hj
      · exact .inl (.inr ⟨job,hj,hm⟩)
      · exact .inr (by rw [← hm,List.mem_singleton.mp hj]; rfl)
    | dequeue n => exact .inl (.inr ⟨job,List.mem_of_mem_eraseIdx hj,hm⟩)
    | _ => exact .inl (.inr ⟨job,hj,hm⟩)

theorem Effect.apply_caches {f : Effect} (h : (f.apply w).Caches c m) :
    w.Caches c m ∨ f = .cacheMessage c m := by
  cases f with
  | setMembers c' ms =>
    simp only [World.Caches,Effect.apply,Redis.setMembers] at h
    split at h <;> exact .inl h
  | cacheMessage c' k =>
    simp only [World.Caches,Effect.apply,Redis.cacheMessage,Function.update_apply] at h
    split at h
    · rename_i hc
      rcases List.mem_append.mp (List.mem_of_mem_drop h) with h | h
      · exact .inl (by rw [World.Caches,hc]; exact h)
      · rw [hc,CacheItem.payload.inj (List.mem_singleton.mp h)]
        exact .inr rfl
    · exact .inl h
  | invalidateMessages c' =>
    simp only [World.Caches,Effect.apply,Redis.invalidateMessages,Function.update_apply] at h
    split at h
    · simp at h
    · exact .inl h
  | _ => exact .inl h

theorem AfterStep.queues {f : Effect} (ha : AfterStep w w' f) (h : w'.Queues m) :
    w.Queues m ∨ f.payload = some m := by
  rw [AfterStep] at ha
  rw [ha] at h
  exact Effect.apply_queues (w := { w with pg := w'.pg }) h

theorem AfterStep.caches {f : Effect} (ha : AfterStep w w' f) (h : w'.Caches c m) :
    w.Caches c m ∨ f = .cacheMessage c m := by
  rw [AfterStep] at ha
  rw [ha] at h
  exact Effect.apply_caches (w := { w with pg := w'.pg }) h

/-- A call stores only what it carries. -/
theorem Call.carries_payload (h : (q.effect ch).payload = some m) : m.shown ∈ q.carries := by
  have hi := q.issues ch
  generalize q.effect ch = f at h hi
  cases hi with
  | push k ms n hf =>
    obtain rfl := Option.some.inj h
    simp [carries]
  | enqueue job =>
    obtain rfl := Option.some.inj h
    simp [carries]
  | requeue d =>
    obtain rfl := Option.some.inj h
    simp [carries]
  | @queue _ d hd =>
    obtain rfl := Option.some.inj h
    unfold Call.delivery at hd
    split at hd <;> simp_all [carries]
  | _ => simp [Effect.payload] at h

/-- Only `send` pushes onto a cache list, its own message onto that of its channel. -/
theorem Call.of_cacheMessage (h : q.effect ch = .cacheMessage c m) :
    m.channelId = c ∧ ch.fail = false ∧ ∃ ms k, q = .send (.cache m ms k) := by
  have hi := q.issues ch
  rw [h] at hi
  cases hi with
  | push m ms k hf => exact ⟨rfl,hf,ms,k,rfl⟩

/-! ### What a call holds -/

/-- Where the copies of a call come from: it held them, or it read them from the queues, the
cache list or the tables, or it has just committed the message. -/
inductive Copied (q : Call) (w : World) (s : Shown) : Prop
  | held (h : s ∈ q.carries)
  | queued (m : MessagePayload) (h : w.Queues m) (hs : s = m.shown)
  | cached (c : Uuid) (m : MessagePayload) (h : w.Caches c m) (hs : s = m.shown)
  | row (r : MessageRow) (h : r ∈ w.pg.db.messages) (u : Option String)
      (hs : s = (toMessagePayload r u).shown)
  | preview (r : ChannelRow) (h : r ∈ w.pg.db.channels) (hs : (inboxChannel w.pg.db r).shown = some s)
  | posted (a : SendAttempt) (r : MessageRow) (h : q = .send (.commit a r)) (hs : s.id = r.id)

theorem Send.copied {q q' : Send} (h : q.step x p ch w = some (q',w')) {s : Shown}
    (hs : s ∈ (Call.send q').carries) : Copied (.send q) w s := by
  have hjoin : ∀ {m e g k}, s ∈ (Call.send (Send.joinLookup m e g k)).carries → s = m.shown := by
    intro m e g k hs
    unfold Send.joinLookup at hs
    split at hs
    · simp [Call.carries] at hs
    · exact List.mem_singleton.mp hs
    · exact List.mem_singleton.mp hs
  cases Send.edge h with
  | committed hw =>
    obtain rfl := List.mem_singleton.mp hs
    exact .posted _ _ rfl rfl
  | snapshot hside hw => exact .held (List.mem_singleton.mpr (hjoin hs))
  | members hside hg => exact .held (List.mem_singleton.mpr (hjoin hs))
  | emitted => exact .held hs
  | cached hrec => exact .held hs
  | inline hf => exact .held hs
  | delivering hd hfin =>
    refine .held ?_
    simpa [Call.carries,Delivery.step_job hd] using hs
  | _ => simp [Call.carries] at hs

theorem Worker.copied {q q' : Worker} (h : q.step ch w = some (q',w')) {s : Shown}
    (hs : s ∈ (Call.worker q').carries) : Copied (.worker q) w s := by
  cases q with
  | take =>
    simp only [Worker.step] at h
    split at h
    · simp at h
    · rename_i job hjob
      obtain ⟨rfl,_⟩ := Prod.mk.inj (Option.some.inj h)
      exact .queued job.message (.inr ⟨job,List.mem_of_getElem? hjob,rfl⟩) (List.mem_singleton.mp hs)
  | running d =>
    simp only [Worker.step] at h
    split at h
    · obtain ⟨rfl,_⟩ := Prod.mk.inj (Option.some.inj h)
      simp [Call.carries] at hs
    · obtain ⟨⟨d',v⟩,hd,he⟩ := Option.map_eq_some_iff.mp h
      obtain ⟨rfl,_⟩ := Prod.mk.inj he
      simp only at hs
      split at hs
      · simp [Call.carries] at hs
      · exact .held (by simpa [Call.carries,Delivery.step_job hd] using hs)
  | done d => simp [Worker.step] at h
  | stalled => simp [Worker.step] at h

theorem GetPending.copied {q q' : GetPending} (h : q.step ch w = some (q',w')) {s : Shown}
    (hs : s ∈ (Call.getPending q').carries++(Call.getPending q').answers) : Copied (.getPending q) w s := by
  cases q with
  | range u =>
    simp only [GetPending.step] at h
    split at h <;> obtain ⟨rfl,_⟩ := Prod.mk.inj (Option.some.inj h)
    · simp [Call.carries,Call.answers] at hs
    · simp only [Call.carries,Call.answers,List.append_nil,List.map_map,List.mem_map,Function.comp_apply] at hs
      obtain ⟨k,hk,rfl⟩ := hs
      exact .queued k.2 (.inl ⟨u,k.1,List.mem_of_mem_take hk⟩) rfl
  | remove u raw =>
    simp only [GetPending.step] at h
    split at h <;> obtain ⟨rfl,_⟩ := Prod.mk.inj (Option.some.inj h)
    · simp [Call.carries,Call.answers] at hs
    · exact .held (by simpa [Call.carries,Call.answers] using hs)
  | done ms n => simp [GetPending.step] at h

theorem PageArgs.mem_databasePage {a : PageArgs} {db : Db} (h : m ∈ (a.databasePage db).messages) :
    ∃ r ∈ db.messages, m = toMessagePayload r (db.username? r.senderId) := by
  simp only [PageArgs.databasePage,List.mem_map] at h
  obtain ⟨r,hr,rfl⟩ := h
  refine ⟨r,?_,rfl⟩
  have hrows : r ∈ a.rows db := by
    have hpage : ∀ b : Bool, r ∈ (if b then (a.rows db).take a.safeLimit else a.rows db) →
        r ∈ a.rows db := by
      intro b hb
      cases b with
      | false => exact hb
      | true => exact List.mem_of_mem_take hb
    split at hr
    · exact hpage _ hr
    · exact hpage _ (List.mem_reverse.mp hr)
  have hsorted := List.mem_of_mem_take hrows
  split at hsorted <;> rw [(List.perm_insertionSort _ _).mem_iff] at hsorted
  · exact (List.mem_filter.mp (List.mem_filter.mp hsorted).1).1
  · exact (List.mem_filter.mp (List.mem_filter.mp hsorted).1).1

theorem GetMessages.copied {q q' : GetMessages} (h : q.step ch w = some (q',w')) {s : Shown}
    (hs : s ∈ (Call.getMessages q').carries++(Call.getMessages q').answers) :
    Copied (.getMessages q) w s := by
  cases q with
  | member a =>
    simp only [GetMessages.step] at h
    split_ifs at h <;> obtain ⟨rfl,_⟩ := Prod.mk.inj (Option.some.inj h) <;>
      simp [Call.carries,Call.answers] at hs
  | cached a =>
    simp only [GetMessages.step] at h
    split at h
    · obtain ⟨rfl,_⟩ := Prod.mk.inj (Option.some.inj h)
      simp [Call.carries,Call.answers] at hs
    · obtain ⟨rfl,_⟩ := Prod.mk.inj (Option.some.inj h)
      split at hs
      · simp [Call.carries,Call.answers] at hs
      · simp [Call.carries,Call.answers] at hs
      · rename_i page hpage
        simp only [Call.carries,Call.answers,List.append_nil,List.mem_map] at hs
        obtain ⟨k,hk,rfl⟩ := hs
        exact .cached a.channelId k (List.mem_of_mem_drop (((cachedAnswer_page hpage).2.1 k).mp hk)) rfl
  | invalidate a =>
    obtain ⟨rfl,_⟩ := Prod.mk.inj (Option.some.inj h)
    simp [Call.carries,Call.answers] at hs
  | rows a =>
    simp only [GetMessages.step] at h
    split at h <;> obtain ⟨rfl,_⟩ := Prod.mk.inj (Option.some.inj h)
    · simp [Call.carries,Call.answers] at hs
    · simp only [Call.carries,Call.answers,List.append_nil,List.mem_map] at hs
      obtain ⟨k,hk,rfl⟩ := hs
      obtain ⟨r,hr,rfl⟩ := PageArgs.mem_databasePage hk
      exact .row r hr _ rfl
  | reactions a page source =>
    simp only [GetMessages.step] at h
    split at h <;> obtain ⟨rfl,_⟩ := Prod.mk.inj (Option.some.inj h)
    · simp [Call.carries,Call.answers] at hs
    · refine .held ?_
      simpa [Call.carries,Call.answers,attachReactions] using hs
  | done a page => simp [GetMessages.step] at h
  | failed err => simp [GetMessages.step] at h

/-- What `joinReads` shows are the channels read. -/
theorem GetInbox.joinReads_shows {u : Uuid} {read : List (Uuid × Option Uuid)}
    {channels : Option (List InboxChannel)} {peers : Option (List (Uuid × Uuid))}
    {unread : Option (List (Uuid × ℕ))} {s : Shown}
    (hs : s ∈ (Call.getInbox (joinReads u read channels peers unread)).carries++
      (Call.getInbox (joinReads u read channels peers unread)).answers) :
    ∃ cs, channels = some cs ∧ s ∈ cs.filterMap (·.shown) := by
  unfold joinReads at hs
  split at hs
  · refine ⟨_,rfl,?_⟩
    simpa [Call.carries,Call.answers,inboxItem,List.filterMap_map,Function.comp_def] using hs
  · cases channels with
    | none => simp [Call.carries,Call.answers] at hs
    | some cs => exact ⟨cs,rfl,by simpa [Call.carries,Call.answers] using hs⟩

theorem GetInbox.copied {q q' : GetInbox} (h : q.step ch w = some (q',w')) {s : Shown}
    (hs : s ∈ (Call.getInbox q').carries++(Call.getInbox q').answers) : Copied (.getInbox q) w s := by
  cases q with
  | memberships u =>
    simp only [GetInbox.step] at h
    split at h <;> obtain ⟨rfl,_⟩ := Prod.mk.inj (Option.some.inj h)
    · simp [Call.carries,Call.answers] at hs
    · split at hs <;> simp [Call.carries,Call.answers] at hs
  | gather u read channels peers unread =>
    have hheld : ∀ {cs}, channels = some cs → s ∈ cs.filterMap (·.shown) →
        Copied (.getInbox (.gather u read channels peers unread)) w s := by
      rintro cs rfl hcs
      exact .held hcs
    simp only [GetInbox.step] at h
    split at h <;> split_ifs at h <;> obtain ⟨rfl,_⟩ := Prod.mk.inj (Option.some.inj h)
    · simp [Call.carries,Call.answers] at hs
    · obtain ⟨cs,hcs,hs⟩ := joinReads_shows hs
      obtain rfl := Option.some.inj hcs
      simp only [inboxChannels,List.filterMap_map,List.mem_filterMap,Function.comp_apply] at hs
      obtain ⟨r,hr,hs⟩ := hs
      rw [(List.perm_insertionSort _ _).mem_iff] at hr
      exact .preview r (List.mem_filter.mp hr).1 hs
    · simp [Call.carries,Call.answers] at hs
    · obtain ⟨cs,hcs,hs⟩ := joinReads_shows hs
      exact hheld hcs hs
    · obtain ⟨cs,hcs,hs⟩ := joinReads_shows hs
      exact hheld hcs hs
    · obtain ⟨cs,hcs,hs⟩ := joinReads_shows hs
      exact hheld hcs hs
  | done u items => simp [GetInbox.step] at h
  | failed err => simp [GetInbox.step] at h

/-- A step copies nothing else. -/
theorem Call.copied (h : q.step x p ch w = some (q',w')) {s : Shown} (hs : s ∈ q'.carries++q'.answers) :
    Copied q w s := by
  cases q with
  | send q =>
    obtain ⟨r,hm,rfl⟩ := of_step h
    exact Send.copied hm (by simpa [answers] using hs)
  | worker q =>
    obtain ⟨r,hm,rfl⟩ := of_step h
    exact Worker.copied hm (by simpa [answers] using hs)
  | getPending q =>
    obtain ⟨r,hm,rfl⟩ := of_step h
    exact GetPending.copied hm hs
  | getMessages q =>
    obtain ⟨r,hm,rfl⟩ := of_step h
    exact GetMessages.copied hm hs
  | getInbox q =>
    obtain ⟨r,hm,rfl⟩ := of_step h
    exact GetInbox.copied hm hs
  | _ =>
    obtain ⟨r,hm,rfl⟩ := of_step h
    simp [carries,answers] at hs

/-! ### The lists of the channels -/

/-- The cache list of a channel holds messages of that channel only. -/
def Filed (w : World) : Prop := ∀ c m, w.Caches c m → m.channelId = c ∧ Posted w.pg.db m

variable {d e : Server} {ok : Server → Action → Prop}

theorem Event.caches {f : Event} (h : (f.apply w).Caches c m) : w.Caches c m := by
  cases f with
  | expireMessages c' =>
    simp only [World.Caches,Event.apply,Redis.invalidateMessages,Function.update_apply] at h
    split at h
    · simp at h
    · exact h
  | _ => exact h

theorem Filed.next {l : Action} (h : Filed d.world) (hv : (outline x).Valid d)
    (hn : (server x).next d l = some e) : Filed e.world := by
  intro c m hm
  have hg : Grows d.world.pg.db e.world.pg.db := by
    rcases step_refines hv hn with he | ⟨_,_,_,_,_,hc⟩
    · exact he ▸ Grows.refl _
    · exact hc.transition.grows
  suffices hs : m.channelId = c ∧ Posted d.world.pg.db m by exact ⟨hs.1,hs.2.grows hg⟩
  cases l with
  | spawn q =>
    obtain rfl := Option.some.inj hn
    exact h c m hm
  | run p ch =>
    obtain ⟨q,q',w',hq,hs,rfl⟩ := (server x).next_run hn
    rcases (Call.step_world hs).caches hm with hm | hf
    · exact h c m hm
    · obtain ⟨hc,_,ms,k,rfl⟩ := Call.of_cacheMessage hf
      have hass := hv.holds p _ hq
      exact ⟨hc,hass.2⟩
  | env f =>
    obtain ⟨w',hw,rfl⟩ := (server x).next_env hn
    obtain rfl := Option.some.inj hw
    exact h c m (Event.caches hm)

theorem Reach.filed (hok : ∀ c l, ok c l → Arrives c l) (hw : Start w)
    (h₀ : ∀ c, w.redis.messageCache c = []) (h : Reach x ok w d) : Filed d.world := by
  refine h.invariant (I := fun d => Filed d.world) ?_ fun a l b hr ha _ hn =>
    ha.next (Reach.valid hok hw hr) hn
  intro c m hm
  simp [World.Caches,h₀] at hm

end ZevraServer
