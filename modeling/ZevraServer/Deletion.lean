import ZevraServer.Copies
import ZevraServer.Preview

/-!
# Deleted messages

`deleteMessage` wipes the row and drops the cache list of the channel. It does not
touch the pending queues and the delivery jobs, nor what other calls have read
already. If none of these holds the message when the cache list is dropped, nothing
of it is answered once `deleteMessage` has returned.
-/

namespace ZevraServer

open ReadCommitted Interleaving

/-- Nothing of message `m` is seen. -/
def Shown.Hides (m : Uuid) (s : Shown) : Prop :=
  s.id = m → s.isDeleted = true ∧ s.encryptedContent = "" ∧ s.metadata = none

/-- A deletion that comes to its cache invalidation finds no copy of the message in a call,
a pending queue or the delivery queue; if the invalidation fails, none in the cache list
either. -/
structure ForgetsCopies (d : Server) (l : Action) : Prop where
  arrives : Arrives d l
  copies : ∀ (p : ℕ) ch m c, l = .run p ch → d.pool[p]? = some (.deleteMessage (.invalidate m c)) →
    (∀ q ∈ d.pool, ∀ s ∈ q.carries, s.Hides m) ∧ (∀ k, d.world.Queues k → k.shown.Hides m) ∧
    (ch.fail = true → ∀ k, d.world.Caches c k → k.shown.Hides m)

/-- Message `m` of channel `c` is wiped in the table and in every copy. -/
structure Gone (m c : Uuid) (d : Server) : Prop where
  wiped : IsWiped d.world.pg.db m c
  carried : ∀ q ∈ d.pool, ∀ s ∈ q.carries, s.Hides m
  queued : ∀ k, d.world.Queues k → k.shown.Hides m
  cached : ∀ c' k, d.world.Caches c' k → k.shown.Hides m

variable {x : Externals} {p : ℕ} {ch : Choice} {w w' : World} {d e : Server} {m c : Uuid}

theorem IsWiped.not_previewed {db : Db} (hi : Integrity db) (hp : Previews db) (h : IsWiped db m c)
    {r : ChannelRow} (hr : r ∈ db.channels) : r.lastMessageId ≠ some m := by
  intro hm
  obtain ⟨row,hrow,hid,_,hdel⟩ := h
  rcases hp r hr with ⟨_,hnone,_⟩ | ⟨n,hn,hlive,_,hlast,_⟩
  · simp [hm] at hnone
  · have hnm : n.id = row.id := by
      rw [hid]
      exact Option.some.inj (hlast.symm.trans hm)
    have heq := hi.message_unique (List.mem_filter.mp hn).1 hrow hnm
    rw [heq,hdel] at hlive
    simp at hlive

theorem IsWiped.shown {db : Db} (hi : Integrity db) (h : IsWiped db m c) {r : MessageRow}
    (hr : r ∈ db.messages) (u : Option String) : (toMessagePayload r u).shown.Hides m := by
  intro hid
  obtain ⟨row,hrow,hm,_,hdel⟩ := h
  have heq := hi.message_unique hr hrow (hid.trans hm.symm)
  rw [← heq] at hdel
  simp [MessagePayload.shown,toMessagePayload,hdel]

/-- A payload of the deleted message is filed under its channel. -/
theorem IsWiped.channel {db : Db} (hi : Integrity db) (h : IsWiped db m c) {k : MessagePayload}
    (hk : Posted db k) (hid : k.id = m) : k.channelId = c := by
  obtain ⟨row,hrow,hm,hc,_⟩ := h
  obtain ⟨r,u,rfl,_,hr | hr⟩ := hk
  · rw [← hc,hi.message_unique hrow hr (hm.trans hid.symm)]
    rfl
  · rw [← hc,hi.message_unique hrow hr (hm.trans hid.symm)]
    rfl

namespace Gone

/-- Nothing a call reads brings the message back. -/
theorem hides (h : Gone m c d) (hv : (outline x).Valid d) (hp : Previews d.world.pg.db) {q : Call}
    (hq : d.pool[p]? = some q) {s : Shown} (hs : Copied q d.world s) : s.Hides m := by
  have hi := hv.inv.integrity
  rcases hs with hs | ⟨k,hk,rfl⟩ | ⟨c',k,hk,rfl⟩ | ⟨r,hr,u,rfl⟩ | ⟨r,hr,hs⟩ | ⟨a,r,rfl,hid⟩
  · exact h.carried q (List.mem_of_getElem? hq) s hs
  · exact h.queued k hk
  · exact h.cached c' k hk
  · exact h.wiped.shown hi hr u
  · intro hid
    obtain ⟨i,hlast,rfl⟩ := Option.map_eq_some_iff.mp hs
    exact absurd (hid ▸ hlast) (h.wiped.not_previewed hi hp hr)
  · intro hm
    obtain ⟨row,hrow,hrm,_⟩ := h.wiped
    obtain ⟨_,_,_,hnum⟩ := hv.holds p _ hq
    exact absurd (hrm.trans (hm.symm.trans hid)) (hnum.fresh row hrow)

/-- Once gone, a message stays gone. -/
theorem next {l : Action} (h : Gone m c d) (hv : (outline x).Valid d) (hp : Previews d.world.pg.db)
    (hl : Arrives d l) (hn : (server x).next d l = some e) : Gone m c e := by
  have hwiped : IsWiped e.world.pg.db m c := by
    rcases step_refines hv hn with he | ⟨_,_,_,_,_,hc⟩
    · exact he ▸ h.wiped
    · exact h.wiped.grows hc.transition.grows
  cases l with
  | spawn q =>
    obtain rfl := Option.some.inj hn
    refine ⟨hwiped,fun r hr s hs => ?_,h.queued,h.cached⟩
    rcases List.mem_append.mp hr with hr | hr
    · exact h.carried r hr s hs
    · obtain rfl := List.mem_singleton.mp hr
      cases hl <;> simp [Call.carries] at hs
  | run p ch =>
    obtain ⟨q,q',w',hq,hs,rfl⟩ := (server x).next_run hn
    have hpay : ∀ {k}, (q.effect ch).payload = some k → k.shown.Hides m := fun hk =>
      h.carried q (List.mem_of_getElem? hq) _ (Call.carries_payload hk)
    refine ⟨hwiped,fun r hr s hsr => ?_,fun k hk => ?_,fun c' k hk => ?_⟩
    · rcases List.mem_or_eq_of_mem_set hr with hr | rfl
      · exact h.carried r hr s hsr
      · exact h.hides hv hp hq (Call.copied hs (List.mem_append_left _ hsr))
    · rcases (Call.step_world hs).queues hk with hk | hk
      · exact h.queued k hk
      · exact hpay hk
    · rcases (Call.step_world hs).caches hk with hk | hk
      · exact h.cached c' k hk
      · exact hpay (by rw [hk]; rfl)
  | env f =>
    obtain ⟨w',hw,rfl⟩ := (server x).next_env hn
    obtain rfl := Option.some.inj hw
    refine ⟨hwiped,h.carried,fun k hk => h.queued k ?_,fun c' k hk => h.cached c' k (Event.caches hk)⟩
    cases f <;> exact hk

/-- The invalidation removes the last copy. -/
theorem of_invalidate (hv : (outline x).Valid d) (hfiled : Filed d.world)
    (hl : ForgetsCopies d (.run p ch)) (hq : d.pool[p]? = some (.deleteMessage (.invalidate m c)))
    {q' : DeleteMessage} (hs : (DeleteMessage.invalidate m c).step p ch d.world = some (q',w')) :
    Gone m c ⟨w',d.pool.set p (.deleteMessage q')⟩ := by
  obtain ⟨hcarried,hqueued,hfail⟩ := hl.copies p ch m c rfl hq
  have hass : IsWiped d.world.pg.db m c := (hv.holds p _ hq).2
  obtain ⟨rfl,rfl⟩ := Prod.mk.inj (Option.some.inj hs)
  have hother : ∀ c' k, c' ≠ c → d.world.Caches c' k → k.shown.Hides m := by
    intro c' k hne hk hid
    obtain ⟨hc',hpost⟩ := hfiled c' k hk
    exact absurd (hc'.symm.trans (hass.channel hv.inv.integrity hpost hid)) hne
  refine ⟨?_,fun r hr s hsr => ?_,fun k hk => hqueued k ?_,fun c' k hk => ?_⟩
  · cases hf : ch.fail <;> simpa [hf] using hass
  · rcases List.mem_or_eq_of_mem_set hr with hr | rfl
    · exact hcarried r hr s hsr
    · simp [Call.carries] at hsr
  · cases hf : ch.fail <;> simpa [hf,World.Queues,Redis.invalidateMessages] using hk
  · cases hf : ch.fail with
    | true =>
      simp only [hf,if_true] at hk
      by_cases hc : c' = c
      · subst hc
        exact hfail hf k hk
      · exact hother c' k hc hk
    | false =>
      by_cases hc : c' = c
      · subst hc
        simp [hf,World.Caches,Redis.invalidateMessages] at hk
      · refine hother c' k hc ?_
        simpa [hf,World.Caches,Redis.invalidateMessages,Function.update_of_ne hc] using hk

end Gone

/-! ### Runs -/

/-- What the deletions past their invalidation have achieved. -/
def Purged (d : Server) : Prop :=
  ∀ (p : ℕ) m c, d.pool[p]? = some (.deleteMessage (.emit m c)) ∨
    d.pool[p]? = some (.deleteMessage (.done m c)) → Gone m c d

theorem Purged.next {l : Action} (h : Purged d) (hv : (outline x).Valid d) (hp : Previews d.world.pg.db)
    (hfiled : Filed d.world) (hl : ForgetsCopies d l) (hn : (server x).next d l = some e) : Purged e := by
  intro r m c hr
  suffices hcase : Gone m c d ∨ Gone m c e by
    rcases hcase with hg | hg
    · exact hg.next hv hp hl.arrives hn
    · exact hg
  cases l with
  | spawn q =>
    obtain rfl := Option.some.inj hn
    refine .inl (h r m c (hr.imp (fun hr => ?_) fun hr => ?_)) <;>
      rcases pool_append hr with ⟨_,hr⟩ | ⟨_,rfl⟩
    · exact hr
    · exact nomatch hl.arrives
    · exact hr
    · exact nomatch hl.arrives
  | run p ch =>
    obtain ⟨q,q',w',hq,hs,rfl⟩ := (server x).next_run hn
    by_cases hrp : r = p
    · subst hrp
      have hq' : q' = .deleteMessage (.emit m c) ∨ q' = .deleteMessage (.done m c) := by
        have hself := List.getElem?_set_self (a := q') (List.getElem?_eq_some_iff.mp hq).1
        rw [hself] at hr
        exact hr.imp (fun hr => Option.some.inj hr) fun hr => Option.some.inj hr
      cases q with
      | deleteMessage q =>
        obtain ⟨s,hm,rfl⟩ := Call.of_step hs
        cases DeleteMessage.edge hm with
        | @invalidated m' c' =>
          have he : m' = m ∧ c' = c := by simpa using hq'
          obtain ⟨rfl,rfl⟩ := he
          exact .inr (Gone.of_invalidate hv hfiled hl hq hm)
        | @emitted m' c' =>
          have he : m' = m ∧ c' = c := by simpa using hq'
          obtain ⟨rfl,rfl⟩ := he
          exact .inl (h r m' c' (.inl hq))
        | _ => simp at hq'
      | _ =>
        obtain ⟨s,_,rfl⟩ := Call.of_step hs
        simp at hq'
    · rw [List.getElem?_set_ne (Ne.symm hrp)] at hr
      exact .inl (h r m c hr)
  | env f =>
    obtain ⟨w',hw,rfl⟩ := (server x).next_env hn
    exact .inl (h r m c hr)

/-- What a call shows after it has moved in a state in which the message is gone. -/
theorem Gone.answers (hw : Fresh w) (h : Reach x ForgetsCopies w d) (hg : Gone m c d)
    (h' : Run (server x) ForgetsCopies d e) :
    Gone m c e ∧ ∀ (r : ℕ) (q : Call), e.pool[r]? = some q → d.pool[r]? = some q ∨
      ∀ s ∈ q.answers, s.Hides m := by
  refine h'.invariant (I := fun e => Gone m c e ∧ ∀ (r : ℕ) (q : Call), e.pool[r]? = some q →
    d.pool[r]? = some q ∨ ∀ s ∈ q.answers, s.Hides m) ⟨hg,fun r q hr => .inl hr⟩ ?_
  intro a l b hr ⟨hga,hans⟩ hl hn
  have hok : ∀ c l, ForgetsCopies c l → Arrives c l := fun _ _ hl => hl.arrives
  have hv := Reach.valid hok hw.toStart (h.trans hr)
  have hp := Reach.previews_newest hok hw (h.trans hr)
  refine ⟨hga.next hv hp hl.arrives hn,fun r q hq => ?_⟩
  cases l with
  | spawn q₀ =>
    obtain rfl := Option.some.inj hn
    rcases pool_append hq with ⟨_,hq⟩ | ⟨_,rfl⟩
    · exact hans r q hq
    · refine .inr fun s hs => ?_
      have harr := hl.arrives
      cases harr <;> simp [Call.answers] at hs
  | run p ch =>
    obtain ⟨q₀,q',w',hq₀,hs,rfl⟩ := (server x).next_run hn
    rcases pool_set hq with ⟨rfl,rfl⟩ | ⟨_,hq⟩
    · exact .inr fun s hsq => hga.hides hv hp hq₀ (Call.copied hs (List.mem_append_right _ hsq))
    · exact hans r q hq
  | env f =>
    obtain ⟨w',_,rfl⟩ := (server x).next_env hn
    exact hans r q hq

/-- The condition as a check for runs that queue messages for `v` only. -/
def forgetsCopies (v : Uuid) (d : Server) (l : Action) : Bool :=
  arrives d l && match l with
    | .run p ch =>
      (d.pool[p]?).all fun q =>
        (match q.effect ch with
          | .addPending ids _ _ => ids.all (· = v)
          | _ => true) &&
        match q with
        | .deleteMessage (.invalidate m _) =>
          !ch.fail && d.pool.all (·.carries.all (·.id ≠ m)) && d.world.queue.all (·.message.id ≠ m) &&
            (d.world.redis.pending v).all (·.2.id ≠ m)
        | _ => true
    | _ => true

/-- Nobody but `v` has a pending message. -/
def PendingOnlyOf (v : Uuid) (d : Server) : Prop := ∀ u, u ≠ v → d.world.redis.pending u = []

theorem Effect.apply_pending_nil {f : Effect} {u : Uuid}
    (hf : ∀ ids score k, f = .addPending ids score k → u ∉ ids) (h : w.redis.pending u = []) :
    (f.apply w).redis.pending u = [] := by
  cases f with
  | setMembers c ms =>
    simp only [Effect.apply,Redis.setMembers]
    split <;> exact h
  | addPending ids score k => simp [Effect.apply,Redis.addPendingMessage,hf ids score k rfl,h]
  | removePending v raw =>
    simp only [Effect.apply,Redis.removePending,Function.update_apply]
    split
    · rename_i hu
      rw [← hu,h]
      rfl
    · exact h
  | _ => exact h

theorem PendingOnlyOf.next {v : Uuid} {l : Action} (h : PendingOnlyOf v d)
    (hl : forgetsCopies v d l = true) (hn : (server x).next d l = some e) : PendingOnlyOf v e := by
  intro u hu
  cases l with
  | spawn q =>
    obtain rfl := Option.some.inj hn
    exact h u hu
  | run p ch =>
    obtain ⟨q,q',w',hq,hs,rfl⟩ := (server x).next_run hn
    have hw := Call.step_world hs
    rw [AfterStep] at hw
    rw [hw]
    refine Effect.apply_pending_nil (fun ids score k hf hmem => ?_) (h u hu)
    simp only [forgetsCopies,hq,Option.all_some,hf,Bool.and_eq_true,List.all_eq_true] at hl
    exact hu (of_decide_eq_true (hl.2.1 u hmem))
  | env f =>
    obtain ⟨w',hw,rfl⟩ := (server x).next_env hn
    obtain rfl := Option.some.inj hw
    cases f <;> exact h u hu

end ZevraServer
