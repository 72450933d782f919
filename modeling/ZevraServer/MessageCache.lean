import ZevraServer.Copies

/-!
# The cached message list

`send` pushes its message onto the channel's list some time after its commit, and
`deleteMessage` drops the list some time after its own. A push can be lost, can come
after the push of a newer message and can come after the drop of its own deletion.
The list ends with the newest message and holds no deleted one, up to pushes and
drops still ahead, in runs in which none of this does harm.
-/

namespace ZevraServer

open ReadCommitted Interleaving

/-! ### Two windows -/

section

variable {db : Db} {c : Uuid} {n : ℕ} {items : List CacheItem} {page : BarePage}

/-- The last items of the list are the newest messages of the table, if the list holds rows
of the table only and its last item is the newest one. -/
theorem cachedAnswer_newest (h : Contiguous db) (hn : 0 < n)
    (hrows : ∀ m, .payload m ∈ items → ∃ r ∈ db.messagesOf c, ∃ u, m = toMessagePayload r u)
    (hlast : ∃ m, items.getLast? = some (.payload m) ∧ m.sequenceNumber = (db.messagesOf c).length)
    (hans : cachedAnswer (Redis.lastItems n items) n = .page page) :
    page.messages.map (·.shown) = (newest n (db.messagesOf c)).map
        (fun r => (toMessagePayload r (db.username? r.senderId)).shown) ∧
    page.hasMore = decide (n < (db.messagesOf c).length) ∧
    page.nextCursor = if n < (db.messagesOf c).length then some ((db.messagesOf c).length-n+1) else none := by
  obtain ⟨hlen,hmem,o,hnum,hmore,hcur⟩ := cachedAnswer_page hans
  have hsize : (Redis.lastItems n items).length = n := by
    simp only [Redis.lastItems,List.length_drop] at hlen ⊢
    omega
  rw [hsize] at hnum
  have hrow : ∀ m ∈ page.messages, ∃ r ∈ db.messagesOf c, ∃ u, m = toMessagePayload r u := fun m hm =>
    hrows m (List.mem_of_mem_drop ((hmem m).mp hm))
  have hbound : ∀ s ∈ List.range' o n, 1 ≤ s ∧ s ≤ (db.messagesOf c).length := by
    intro s hs
    rw [← hnum] at hs
    obtain ⟨m,hm,rfl⟩ := List.mem_map.mp hs
    obtain ⟨r,hr,u,rfl⟩ := hrow m hm
    have hr' := List.mem_filter.mp hr
    exact (h.mem_iff c _).mp ⟨r,hr'.1,of_decide_eq_true hr'.2,rfl⟩
  have hend : (db.messagesOf c).length ∈ List.range' o n := by
    obtain ⟨m,hm,hseq⟩ := hlast
    have hne : items ≠ [] := by
      rintro rfl
      simp at hm
    have hin : .payload m ∈ Redis.lastItems n items := by
      have hlast' : (Redis.lastItems n items).getLast? = some (.payload m) := by
        have hlt : items.length-n < items.length := by
          have := List.length_pos_of_ne_nil hne
          omega
        rw [Redis.lastItems,List.getLast?_drop,if_neg (by omega)]
        exact hm
      exact List.mem_of_getLast? hlast'
    rw [← hnum,← hseq]
    exact List.mem_map_of_mem ((hmem m).mpr hin)
  have ho : o = (db.messagesOf c).length-n+1 ∧ n ≤ (db.messagesOf c).length := by
    have h₁ := hbound o (by simp [List.mem_range'_1]; omega)
    have h₂ := hbound (o+n-1) (by simp [List.mem_range'_1]; omega)
    have h₃ := List.mem_range'_1.mp hend
    omega
  refine ⟨?_,?_,?_⟩
  · have hseqs : page.messages.map (·.sequenceNumber) =
        (newest n (db.messagesOf c)).map (·.sequenceNumber) := by
      rw [hnum,h.newest_numbers ho.2,ho.1]
    refine List.ext_getElem? fun i => ?_
    have hi := congrArg (·[i]?) hseqs
    simp only [List.getElem?_map] at hi ⊢
    cases hm : page.messages[i]? with
    | none =>
      rw [hm] at hi
      cases hr : (newest n (db.messagesOf c))[i]? with
      | none => rfl
      | some r => simp [hr] at hi
    | some m =>
      rw [hm] at hi
      cases hr : (newest n (db.messagesOf c))[i]? with
      | none => simp [hr] at hi
      | some r =>
        rw [hr] at hi
        obtain ⟨s,hs,u,rfl⟩ := hrow m (List.mem_of_getElem? hm)
        have hs' := List.mem_filter.mp hs
        have hr' := List.mem_filter.mp (List.mem_of_mem_drop (List.mem_of_getElem? hr))
        have hrs : s = r := by
          refine h.unique hr'.1 hs'.1 ?_ (Option.some.inj hi)
          rw [of_decide_eq_true hr'.2,of_decide_eq_true hs'.2]
        rw [hrs]
        rfl
  · rw [hmore,decide_eq_decide]
    omega
  · rw [hcur]
    by_cases hlt : n < (db.messagesOf c).length
    · rw [if_pos (by omega),if_pos hlt,ho.1]
    · rw [if_neg (by omega),if_neg hlt]

end

/-! ### Pushes and drops ahead -/

namespace Call

/-- The message a `send` still has to push. -/
def pushes : Call → Option MessagePayload
  | .send (.lookup m _ _ _) => some m
  | .send (.emit m _ _ _) => some m
  | .send (.cache m _ _) => some m
  | _ => none

/-- The message whose push is lost in this step: Redis is unavailable, or the member lookup
fails and ends the call. -/
def misses (ch : Choice) : Call → Option MessagePayload
  | .send (.lookup m _ (.select _) _) => if ch.fail && !ch.side then some m else none
  | .send (.cache m _ _) => if ch.fail then some m else none
  | _ => none

/-- The channel whose list a deletion still has to drop. -/
def drops : Call → Option Uuid
  | .deleteMessage (.invalidate _ c) => some c
  | _ => none

/-- The push of the newest message of a channel is ahead. -/
def PushesNewest (db : Db) (c : Uuid) (q : Call) : Prop :=
  ∃ m, q.pushes = some m ∧ m.channelId = c ∧ m.sequenceNumber = db.maxSequence c

end Call

/-- The message is not deleted. -/
def IsLive (db : Db) (m : MessagePayload) : Prop := ∀ r ∈ db.messages, r.id = m.id → r.isDeleted = false

/-- What is pushed is not deleted, or a drop of the list is ahead, and it is the newest
message, or the push of that one is ahead; the push of the newest message is lost only
while the list is empty; a drop is lost only while the list holds no deleted message or
another drop is ahead. -/
structure KeepsNewest (d : Server) (l : Action) : Prop where
  arrives : Arrives d l
  pushed : ∀ (p : ℕ) ch m ms k, l = .run p ch → d.pool[p]? = some (.send (.cache m ms k)) →
    ch.fail = false →
    (m.sequenceNumber = d.world.pg.db.maxSequence m.channelId ∨
      d.AnyBeside p (·.PushesNewest d.world.pg.db m.channelId)) ∧
    (IsLive d.world.pg.db m ∨ d.Any (·.drops = some m.channelId))
  missed : ∀ (p : ℕ) ch q m, l = .run p ch → d.pool[p]? = some q → q.misses ch = some m →
    m.sequenceNumber = d.world.pg.db.maxSequence m.channelId → d.world.redis.messageCache m.channelId = []
  dropped : ∀ (p : ℕ) ch i c, l = .run p ch → d.pool[p]? = some (.deleteMessage (.invalidate i c)) →
    ch.fail = true → d.AnyBeside p (·.drops = some c) ∨ ∀ m, d.world.Caches c m → IsLive d.world.pg.db m

/-- The list ends with the newest message and holds no deleted one, up to pushes and drops
still ahead. -/
structure ListSound (d : Server) : Prop where
  newest : ∀ c, d.world.redis.messageCache c = [] ∨
    (∃ m, (d.world.redis.messageCache c).getLast? = some (.payload m) ∧
      m.sequenceNumber = d.world.pg.db.maxSequence c) ∨ d.Any (·.PushesNewest d.world.pg.db c)
  live : ∀ c m, d.world.Caches c m → IsLive d.world.pg.db m ∨ d.Any (·.drops = some c)

variable {x : Externals} {p : ℕ} {ch : Choice} {w w' : World} {d e : Server} {c : Uuid} {q q' : Call}

namespace Call

theorem joinLookup_pushes {m : MessagePayload} {u : Option ℕ} {g : GetMembers}
    {k : Option (Option (List Uuid))} (hg : ∀ err, g ≠ .failed err) :
    (Call.send (Send.joinLookup m u g k)).pushes = some m := by
  unfold Send.joinLookup
  split
  · exact absurd rfl (hg _)
  · rfl
  · rfl

theorem pushes_of_inTransaction {q : Send} {a : SendAttempt} (h : q.inTransaction = some a) :
    (Call.send q).pushes = none := by
  cases q <;> first | rfl | simp [Send.inTransaction] at h

/-- How a push ends. -/
theorem pushes_step {m : MessagePayload} (ha : q.Assert x p w.pg) (h : q.step x p ch w = some (q',w'))
    (hp : q.pushes = some m) :
    q'.pushes = some m ∨ q.misses ch = some m ∨ q.effect ch = .cacheMessage m.channelId m := by
  cases q with
  | send q =>
    obtain ⟨s,hm,rfl⟩ := of_step h
    cases Send.edge hm with
    | snapshot hside hw =>
      obtain rfl := Option.some.inj hp
      exact .inl (joinLookup_pushes ha.2.2)
    | @members _ _ g k g' hside hg =>
      obtain rfl := Option.some.inj hp
      by_cases hfail : ∃ err, g' = .failed err
      · obtain ⟨err,rfl⟩ := hfail
        refine .inr (.inl ?_)
        cases g with
        | select c =>
          simp only [GetMembers.step] at hg
          split at hg
          · rename_i hf
            simp [misses,hf,hside]
          · simp at hg
        | cached c =>
          simp only [GetMembers.step] at hg
          split_ifs at hg <;> simp at hg
        | store c ms =>
          simp only [GetMembers.step] at hg
          split_ifs at hg <;> simp at hg
        | done ms => simp [GetMembers.step] at hg
        | failed err => simp [GetMembers.step] at hg
      · exact .inl (joinLookup_pushes fun err he => hfail ⟨err,he⟩)
    | emitted => exact .inl hp
    | cached hrec =>
      obtain rfl := Option.some.inj hp
      cases hf : ch.fail <;> simp [misses,effect,Send.effect,Effect.unless,hf]
    | alone hrec =>
      obtain rfl := Option.some.inj hp
      cases hf : ch.fail <;> simp [misses,effect,Send.effect,Effect.unless,hf]
    | abort hq err => simp [pushes_of_inTransaction hq] at hp
    | _ => simp [pushes] at hp
  | _ => simp [pushes] at hp

/-- A change of the tables keeps the newest number, or is a `send`. -/
theorem Commits.maxSequence {db db' : Db} (h : q.Commits db db') (c : Uuid) :
    db'.maxSequence c = db.maxSequence c ∨ ∃ a msg, q = .send (.commit a msg) ∧ msg.channelId = c ∧
      Sent msg db db' := by
  rcases h.cases with ⟨a,msg,rfl,h⟩ | ⟨m,c',_,h⟩ | ⟨a,channel,ids,_,h⟩ | ⟨_,_,_,_,h⟩ | ⟨_,_,o,_,h⟩
  · by_cases hc : c = msg.channelId
    · exact .inr ⟨a,msg,rfl,hc.symm,h⟩
    · left
      simp only [Db.maxSequence,(h.frozen hc).messages]
  · left
    simp [Db.maxSequence,Db.messagesOf,h.messages,List.filter_map,Function.comp_def]
  · exact .inl (by simp only [Db.maxSequence,Db.messagesOf,h.messages])
  · exact .inl (by simp only [Db.maxSequence,Db.messagesOf,h.messages])
  · exact .inl (by simp only [Db.maxSequence,Db.messagesOf,h.messages])

/-- A change of the tables keeps a posted message live, or is its deletion. -/
theorem Commits.isLive {db db' : Db} (hi : Integrity db) (h : q.Commits db db') {m : MessagePayload}
    (hm : Posted db m) (hl : IsLive db m) :
    IsLive db' m ∨ q = .deleteMessage (.commit m.id m.channelId) := by
  have hsame : db'.messages = db.messages → IsLive db' m := fun he r hr => hl r (he ▸ hr)
  rcases h.cases with ⟨a,msg,_,h⟩ | ⟨i,c',rfl,h⟩ | ⟨a,channel,ids,_,h⟩ | ⟨_,_,_,_,h⟩ | ⟨_,_,o,_,h⟩
  · refine .inl fun r hr hid => ?_
    rw [h.messages] at hr
    rcases List.mem_append.mp hr with hr | hr
    · exact hl r hr hid
    · obtain rfl := List.mem_singleton.mp hr
      exact h.live
  · by_cases hid : i = m.id
    · subst hid
      obtain ⟨r,hr,hrid,hrc⟩ := h.message
      obtain ⟨row,u,rfl,_,hrow | hrow⟩ := hm
      · rw [← hrc,hi.message_unique hr hrow hrid]
        exact .inr rfl
      · rw [← hrc,hi.message_unique hr hrow hrid]
        exact .inr rfl
    · refine .inl fun r hr hrid => ?_
      rw [h.messages] at hr
      obtain ⟨s,hs,rfl⟩ := List.mem_map.mp hr
      rw [MessageRow.wipeIf_id] at hrid
      have hne : s.id ≠ i := fun he => hid (he.symm.trans hrid)
      rw [MessageRow.wipeIf,if_neg hne]
      exact hl s hs hrid
  · exact .inl (hsame h.messages)
  · exact .inl (hsame h.messages)
  · exact .inl (hsame h.messages)

end Call

/-! ### The list after a step -/

theorem Effect.apply_messageCache (f : Effect) (w : World) (c : Uuid) :
    (∃ m, f = .cacheMessage c m ∧ (f.apply w).redis.messageCache c =
      Redis.lastItems MESSAGE_CACHE_SIZE (w.redis.messageCache c++[.payload m])) ∨
    f = .invalidateMessages c ∧ (f.apply w).redis.messageCache c = [] ∨
    (∀ m, f ≠ .cacheMessage c m) ∧ f ≠ .invalidateMessages c ∧
      (f.apply w).redis.messageCache c = w.redis.messageCache c := by
  cases f with
  | setMembers c' ms =>
    refine .inr (.inr ⟨by simp,by simp,?_⟩)
    simp only [Effect.apply,Redis.setMembers]
    split <;> rfl
  | cacheMessage c' m =>
    by_cases hc : c = c'
    · subst hc
      exact .inl ⟨m,rfl,by simp [Effect.apply,Redis.cacheMessage]⟩
    · refine .inr (.inr ⟨by simp [Ne.symm hc],by simp,?_⟩)
      simp [Effect.apply,Redis.cacheMessage,Function.update_of_ne hc]
  | invalidateMessages c' =>
    by_cases hc : c = c'
    · subst hc
      exact .inr (.inl ⟨rfl,by simp [Effect.apply,Redis.invalidateMessages]⟩)
    · refine .inr (.inr ⟨by simp,by simp [Ne.symm hc],?_⟩)
      simp [Effect.apply,Redis.invalidateMessages,Function.update_of_ne hc]
  | _ => exact .inr (.inr ⟨by simp,by simp,rfl⟩)

theorem AfterStep.messageCache {f : Effect} (h : AfterStep w w' f) (c : Uuid) :
    (∃ m, f = .cacheMessage c m ∧ w'.redis.messageCache c =
      Redis.lastItems MESSAGE_CACHE_SIZE (w.redis.messageCache c++[.payload m])) ∨
    f = .invalidateMessages c ∧ w'.redis.messageCache c = [] ∨
    (∀ m, f ≠ .cacheMessage c m) ∧ f ≠ .invalidateMessages c ∧
      w'.redis.messageCache c = w.redis.messageCache c := by
  rw [AfterStep] at h
  rw [h]
  exact Effect.apply_messageCache f _ c

theorem Redis.getLast?_push (items : List CacheItem) (i : CacheItem) :
    (Redis.lastItems MESSAGE_CACHE_SIZE (items++[i])).getLast? = some i := by
  rw [Redis.lastItems,List.getLast?_drop,if_neg]
  · simp
  · simp [MESSAGE_CACHE_SIZE]

section

variable (hq : d.pool[p]? = some q) (hv : (outline x).Valid d) (hl : KeepsNewest d (.run p ch))
  (hs : q.step x p ch d.world = some (q',w'))

include hq hv hl hs

/-- The newest message after a step that sends none. -/
theorem ListSound.newest_step (h : ListSound d) (hmax : w'.pg.db.maxSequence c = d.world.pg.db.maxSequence c) :
    w'.redis.messageCache c = [] ∨
    (∃ m, (w'.redis.messageCache c).getLast? = some (.payload m) ∧
      m.sequenceNumber = w'.pg.db.maxSequence c) ∨
    Config.Any ⟨w',d.pool.set p q'⟩ (·.PushesNewest w'.pg.db c) := by
  have hsame : ∀ r : Call, r.PushesNewest w'.pg.db c ↔ r.PushesNewest d.world.pg.db c := fun r => by
    simp only [Call.PushesNewest,hmax]
  simp only [hsame,hmax]
  rcases (Call.step_world hs).messageCache c with ⟨m,hf,hlist⟩ | ⟨_,hlist⟩ | ⟨hnp,_,hlist⟩
  · obtain ⟨rfl,hfail,ms,k,rfl⟩ := Call.of_cacheMessage hf
    rcases (hl.pushed p ch m ms k rfl hq hfail).1 with hnew | hb
    · exact .inr (.inl ⟨m,by rw [hlist]; exact Redis.getLast?_push _ _,hnew⟩)
    · exact .inr (.inr hb.set)
  · exact .inl hlist
  · rw [hlist]
    rcases h.newest c with hnil | hlast | hany
    · exact .inl hnil
    · exact .inr (.inl hlast)
    · rcases hany.beside hq with hb | ⟨m,hp,rfl,hnew⟩
      · exact .inr (.inr hb.set)
      · rcases Call.pushes_step (hv.holds p q hq) hs hp with hp' | hmiss | hf
        · exact .inr (.inr (.of_set hq ⟨m,hp',rfl,hnew⟩))
        · exact .inl (hl.missed p ch q m rfl hq hmiss hnew)
        · exact absurd hf (hnp m)

/-- What is live or about to be dropped stays so. -/
theorem ListSound.live_step (h : ListSound d) (hfiled : Filed d.world) {m : MessagePayload}
    (hm : w'.Caches c m) :
    IsLive w'.pg.db m ∨ Config.Any ⟨w',d.pool.set p q'⟩ (·.drops = some c) := by
  obtain ⟨hadv,_⟩ := Call.own hv.inv (hv.holds p q hq) hs
  rcases (Call.step_world hs).caches hm with hold | hf
  · obtain ⟨hc,hpost⟩ := hfiled c m hold
    rcases h.live c m hold with hlive | hany
    · rcases hadv.change with he | hcom
      · exact .inl (he ▸ hlive)
      · rcases hcom.isLive hv.inv.integrity hpost hlive with hlive' | rfl
        · exact .inl hlive'
        · obtain ⟨s,hdel,rfl⟩ := Call.of_step hs
          simp only [DeleteMessage.step] at hdel
          split at hdel <;> obtain ⟨rfl,rfl⟩ := Prod.mk.inj (Option.some.inj hdel)
          · exact .inl hlive
          · exact .inr (.of_set hq (by rw [← hc]; rfl))
    · rcases hany.beside hq with hb | hdrop
      · exact .inr hb.set
      · cases q with
        | deleteMessage q =>
          obtain ⟨s,hdel,rfl⟩ := Call.of_step hs
          cases q with
          | invalidate i c' =>
            obtain rfl := Option.some.inj hdrop
            obtain ⟨rfl,rfl⟩ := Prod.mk.inj (Option.some.inj hdel)
            cases hfail : ch.fail with
            | true =>
              rcases hl.dropped p ch i c' rfl hq hfail with hb | hall
              · exact .inr hb.set
              · exact .inl (hall m hold)
            | false => simp [World.Caches,Redis.invalidateMessages,hfail] at hm
          | _ => simp [Call.drops] at hdrop
        | _ => simp [Call.drops] at hdrop
  · have hdb : w'.pg.db = d.world.pg.db := by
      rcases hadv.change with he | hcom
      · exact he
      · rw [hcom.effect] at hf
        simp at hf
    obtain ⟨rfl,hfail,ms,k,rfl⟩ := Call.of_cacheMessage hf
    rcases (hl.pushed p ch m ms k rfl hq hfail).2 with hlive | hany
    · exact .inl (hdb ▸ hlive)
    · rcases hany.beside hq with hb | hdrop
      · exact .inr hb.set
      · simp [Call.drops] at hdrop

end

/-! ### Runs -/

theorem Call.Initial.pushes {q : Call} (h : q.Initial) : q.pushes = none := by
  cases h <;> rfl

theorem Event.messageCache (f : Event) (w : World) (c : Uuid) :
    (f.apply w).redis.messageCache c = w.redis.messageCache c ∨
      (f.apply w).redis.messageCache c = [] := by
  cases f with
  | expireMessages c' =>
    by_cases hc : c = c'
    · subst hc
      exact .inr (by simp [Event.apply,Redis.invalidateMessages])
    · exact .inl (by simp [Event.apply,Redis.invalidateMessages,Function.update_of_ne hc])
  | _ => exact .inl rfl

theorem ListSound.next {l : Action} (h : ListSound d) (hv : (outline x).Valid d)
    (hc : Contiguous d.world.pg.db) (hfiled : Filed d.world)
    (hl : KeepsNewest d l) (hn : (server x).next d l = some e) : ListSound e := by
  cases l with
  | spawn q =>
    obtain rfl := Option.some.inj hn
    exact ⟨fun c => (h.newest c).imp_right (·.imp_right (·.append)),
      fun c m hm => (h.live c m hm).imp_right (·.append)⟩
  | run p ch =>
    obtain ⟨q,q',w',hq,hs,rfl⟩ := (server x).next_run hn
    refine ⟨fun c => ?_,fun c m hm => h.live_step hq hv hl hs hfiled hm⟩
    obtain ⟨hadv,_⟩ := Call.own hv.inv (hv.holds p q hq) hs
    rcases hadv.change with he | hcom
    · exact h.newest_step hq hv hl hs (by rw [he])
    · rcases hcom.maxSequence c with hmax | ⟨a,msg,rfl,rfl,hsent⟩
      · exact h.newest_step hq hv hl hs hmax
      · obtain ⟨s,hm,rfl⟩ := Call.of_step hs
        simp only [Send.step] at hm
        split at hm <;> obtain ⟨rfl,rfl⟩ := Prod.mk.inj (Option.some.inj hm)
        · exact absurd hsent.messages (by simp)
        · exact .inr (.inr (.of_set hq ⟨_,rfl,rfl,(hc.maxSequence_sent hsent).symm⟩))
  | env f =>
    obtain ⟨w',hw,rfl⟩ := (server x).next_env hn
    obtain rfl := Option.some.inj hw
    refine ⟨fun c => ?_,fun c m hm => ?_⟩
    · rw [Event.apply_pg]
      rcases f.messageCache d.world c with he | he
      · rw [he]
        exact h.newest c
      · exact .inl he
    · rw [Event.apply_pg]
      exact h.live c m (Event.caches hm)

theorem Reach.listSound (hw : Fresh w) (h₀ : ∀ c, w.redis.messageCache c = [])
    (h : Reach x KeepsNewest w d) : ListSound d := by
  have hok : ∀ c l, KeepsNewest c l → Arrives c l := fun _ _ hl => hl.arrives
  refine h.invariant ⟨fun c => .inl (h₀ c),fun c m hm => ?_⟩ fun a l b hr ha hl hn => ?_
  · simp [World.Caches,h₀] at hm
  · exact ha.next (Reach.valid hok hw.toStart hr) (Reach.contiguous hok hw hr)
      (Reach.filed hok hw.toStart h₀ hr) hl hn

/-- No `send` or `deleteMessage` is in progress. -/
def MessagesQuiet (d : Server) : Prop :=
  ∀ q ∈ d.pool, match q with
    | .send q => (∃ m, q = .done m) ∨ ∃ err, q = .failed err
    | .deleteMessage q => (∃ m c, q = .done m c) ∨ ∃ err, q = .failed err
    | _ => True

theorem MessagesQuiet.idle (h : MessagesQuiet d) (hq : q ∈ d.pool) : q.pushes = none ∧ q.drops = none := by
  have hq := h q hq
  cases q with
  | send q => rcases hq with ⟨m,rfl⟩ | ⟨err,rfl⟩ <;> exact ⟨rfl,rfl⟩
  | deleteMessage q => rcases hq with ⟨m,c,rfl⟩ | ⟨err,rfl⟩ <;> exact ⟨rfl,rfl⟩
  | _ => exact ⟨rfl,rfl⟩

/-- Between calls the list holds live messages and ends with the newest. -/
theorem ListSound.quiet (h : ListSound d) (hq : MessagesQuiet d) (c : Uuid) :
    (d.world.redis.messageCache c = [] ∨
      ∃ m, (d.world.redis.messageCache c).getLast? = some (.payload m) ∧
        m.sequenceNumber = d.world.pg.db.maxSequence c) ∧
    ∀ m, d.world.Caches c m → IsLive d.world.pg.db m := by
  constructor
  · rcases h.newest c with hnil | hlast | ⟨r,s,hr,m,hp,_⟩
    · exact .inl hnil
    · exact .inr hlast
    · simp [(hq.idle (List.mem_of_getElem? hr)).1] at hp
  · intro m hm
    rcases h.live c m hm with hlive | ⟨r,s,hr,hdrop⟩
    · exact hlive
    · simp [(hq.idle (List.mem_of_getElem? hr)).2] at hdrop

theorem GetMessages.cached_page {a : PageArgs} {page : BarePage} (hf : ch.fail = false)
    (h : cachedAnswer (w.redis.getRecentMessages a.channelId a.safeLimit) a.safeLimit = .page page) :
    (GetMessages.cached a).step ch w = some (.reactions a page .cache,w) := by
  simp [GetMessages.step,hf,h]

/-- In every run that keeps the newest message, a page that `getMessages` takes from the
cache while no `send` or `deleteMessage` is in progress is the page it would take from
the table. -/
theorem cached_page_is_database_page (hw : Fresh w) (h₀ : ∀ c, w.redis.messageCache c = [])
    (h : Reach x KeepsNewest w d) (hq : MessagesQuiet d) {a : PageArgs} (ha : a.mayCache = true)
    {page : BarePage}
    (hs : (GetMessages.cached a).step ch d.world = some (.reactions a page .cache,w')) :
    page.messages.map (·.shown) = (a.databasePage d.world.pg.db).messages.map (·.shown) ∧
    page.nextCursor = (a.databasePage d.world.pg.db).nextCursor ∧
    page.hasMore = (a.databasePage d.world.pg.db).hasMore := by
  have hok : ∀ c l, KeepsNewest c l → Arrives c l := fun _ _ hl => hl.arrives
  have hcont := h.contiguous hok hw
  have hpos : 0 < a.safeLimit := safeLimit_pos a.limit
  obtain ⟨⟨hcur,hmode⟩,_⟩ : (a.cursor = none ∧ a.mode ≠ .since) ∧ _ := by simpa [PageArgs.mayCache] using ha
  have hans : cachedAnswer (Redis.lastItems a.safeLimit (d.world.redis.messageCache a.channelId))
      a.safeLimit = .page page := by
    simp only [GetMessages.step] at hs
    split at hs
    · simp at hs
    · have hs := (Prod.mk.inj (Option.some.inj hs)).1
      split at hs
      · simp at hs
      · simp at hs
      · rename_i page' hpage
        rw [← (GetMessages.reactions.inj hs).2.1]
        exact hpage
  obtain ⟨hlast,hlive⟩ := (h.listSound hw h₀).quiet hq a.channelId
  have hne : d.world.redis.messageCache a.channelId ≠ [] := by
    intro hnil
    have hlen := (cachedAnswer_page hans).1
    simp only [hnil,Redis.lastItems,List.drop_nil,List.length_nil] at hlen
    omega
  have hrows : ∀ m, .payload m ∈ d.world.redis.messageCache a.channelId →
      ∃ r ∈ d.world.pg.db.messagesOf a.channelId, ∃ u, m = toMessagePayload r u := by
    intro m hm
    obtain ⟨hc,row,u,rfl,_,hrow | hrow⟩ := h.filed hok hw.toStart h₀ a.channelId m hm
    · exact ⟨row,List.mem_filter.mpr ⟨hrow,by simpa [toMessagePayload] using hc⟩,u,rfl⟩
    · have hdel := hlive _ hm row.wipe hrow rfl
      simp [MessageRow.wipe] at hdel
  rw [hcont.maxSequence] at hlast
  obtain ⟨hmsgs,hmore,hnext⟩ := cachedAnswer_newest hcont hpos hrows
    (hlast.resolve_left hne) hans
  obtain ⟨hmsgs',hmore',hnext'⟩ := hcont.databasePage hcur hmode
  exact ⟨by rw [hmsgs,hmsgs',List.map_map]; rfl,by rw [hnext,hnext'],by rw [hmore,hmore']⟩

/-- The condition as a check that also refuses every lost push and every lost drop. -/
def keepsNewest (d : Server) (l : Action) : Bool :=
  arrives d l && match l with
    | .run p ch =>
      (d.pool[p]?).all fun q => (q.misses ch).isNone &&
        match q with
        | .send (.cache m _ _) =>
          m.sequenceNumber = d.world.pg.db.maxSequence m.channelId &&
            d.world.pg.db.messages.all fun r => r.id ≠ m.id ∨ r.isDeleted = false
        | .deleteMessage (.invalidate _ _) => !ch.fail
        | _ => true
    | _ => true

theorem keepsNewest_sound (d : Server) (l : Action) (h : keepsNewest d l = true) : KeepsNewest d l := by
  obtain ⟨harr,hrun⟩ := Bool.and_eq_true_iff.mp h
  refine ⟨arrives_sound d l harr,?_,?_,?_⟩
  · rintro p ch m ms k rfl hp _
    simp only [hp,Option.all_some,Bool.and_eq_true,List.all_eq_true,decide_eq_true_eq] at hrun
    exact ⟨.inl hrun.2.1,.inl fun r hr hid => (hrun.2.2 r hr).resolve_left fun hne => hne hid⟩
  · rintro p ch q m rfl hp hmiss
    simp [hp,hmiss] at hrun
  · rintro p ch i c rfl hp hfail
    simp [hp,hfail] at hrun

/-- What is left of a `send` whose member lookup is answered from the key. -/
def finishing (p : ℕ) : List Action := .run p otherSide::steps p 4

/-- A message is sent, deleted, and followed by another one. -/
def sentAfterDeletion : List Action :=
  sendingAll 0 1 10 50 "hi"++deletingNewest 1 1 50++sending 2 2 10 51 "ho"++finishing 2

/-- The last message. -/
def lastOne : PageArgs := ⟨10,2,.finite 1,none,.latest⟩

theorem cached_page_is_database_page_sentAfterDeletion :
    ∃ d page, Reach plain KeepsNewest smallWorld d ∧ MessagesQuiet d ∧
      (GetMessages.cached lastOne).step calm d.world = some (.reactions lastOne page .cache,d.world) ∧
      page.messages.map (·.shown) = (lastOne.databasePage d.world.pg.db).messages.map (·.shown) := by
  obtain ⟨d,hr,hd⟩ := Run.exists_of_exec (S := server plain) (c := ⟨smallWorld,[]⟩)
    keepsNewest_sound sentAfterDeletion
    (f := fun d => (d.pool,cachedAnswer (d.world.redis.getRecentMessages 10 1) 1))
    (v := ([.send (.done (posted 1 50 "ada" 1 "hi")),.deleteMessage (.done 50 10),
      .send (.done (posted 2 51 "ben" 2 "ho"))],.page ⟨[posted 2 51 "ben" 2 "ho"],some 2,true⟩))
    (by decide +kernel)
  obtain ⟨hpool,hans⟩ := Prod.mk.inj hd
  have hquiet : MessagesQuiet d := by
    intro q hq
    rw [hpool] at hq
    simp only [List.mem_cons,List.not_mem_nil,or_false] at hq
    rcases hq with rfl | rfl | rfl <;> simp
  have hs : (GetMessages.cached lastOne).step calm d.world =
      some (.reactions lastOne ⟨[posted 2 51 "ben" 2 "ho"],some 2,true⟩ .cache,d.world) :=
    GetMessages.cached_page rfl hans
  exact ⟨d,_,hr,hquiet,hs,
    (cached_page_is_database_page smallWorld_fresh (fun _ => rfl) hr hquiet (by decide) hs).1⟩

/-- Two messages are committed one after the other and pushed the other way round. -/
def pushedInReverse : List Action :=
  sending 0 1 10 50 "hi"++sending 1 2 10 51 "ho"++.run 1 otherSide::steps 1 6++finishing 0

/-- Both calls are over and the cached page ends with the older message. -/
theorem cached_page_outdated :
    ∃ d page, Reach plain Arrives smallWorld d ∧ MessagesQuiet d ∧ lastOne.mayCache = true ∧
      (GetMessages.cached lastOne).step calm d.world = some (.reactions lastOne page .cache,d.world) ∧
      ¬(page.messages.map (·.shown) = (lastOne.databasePage d.world.pg.db).messages.map (·.shown) ∧
        page.nextCursor = (lastOne.databasePage d.world.pg.db).nextCursor ∧
        page.hasMore = (lastOne.databasePage d.world.pg.db).hasMore) := by
  obtain ⟨d,hr,hd⟩ := Run.exists_of_exec (S := server plain) (c := ⟨smallWorld,[]⟩) arrives_sound
    pushedInReverse
    (f := fun d => (d.pool,cachedAnswer (d.world.redis.getRecentMessages 10 1) 1,
      (lastOne.databasePage d.world.pg.db).messages.map (·.shown)))
    (v := ([.send (.done (posted 1 50 "ada" 1 "hi")),.send (.done (posted 2 51 "ben" 2 "ho"))],
      .page ⟨[posted 1 50 "ada" 1 "hi"],none,false⟩,[(posted 2 51 "ben" 2 "ho").shown]))
    (by decide +kernel)
  obtain ⟨hpool,hd⟩ := Prod.mk.inj hd
  obtain ⟨hans,hdb⟩ := Prod.mk.inj hd
  refine ⟨d,⟨[posted 1 50 "ada" 1 "hi"],none,false⟩,hr,?_,by decide,GetMessages.cached_page rfl hans,
    fun hsame => ?_⟩
  · intro q hq
    rw [hpool] at hq
    simp only [List.mem_cons,List.not_mem_nil,or_false] at hq
    rcases hq with rfl | rfl <;> simp
  · rw [hdb] at hsame
    exact absurd hsame.1 (by decide)

end ZevraServer
