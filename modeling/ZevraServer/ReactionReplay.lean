import ZevraServer.ReactionRaces
import Mathlib.Data.Finset.Image

/-!
# The reactions a listener sees

Calls that run one after the other. A listener in the room of a channel starts from
the reactions of its messages and applies the events it receives; it reads message
ids as the UUIDs they are, since an event repeats the spelling of the request. What
a call has committed and not yet sent is kept apart, so the listener is behind the
table by exactly that.
-/

namespace ZevraServer.Reactions

open ReadCommitted Interleaving

/-- A reaction as a listener holds it. -/
structure Reaction where
  userId : Uuid
  messageId : Uuid
  emoji : String
  deriving DecidableEq, Repr

def ReactionRow.key (r : ReactionRow) : Reaction := ⟨r.userId,r.messageId,r.emoji⟩

def ReactionData.key (d : ReactionData) : Reaction := ⟨d.userId,.ofText d.messageId,d.emoji⟩

/-- A user in the room of a channel. -/
structure Observer where
  userId : Uuid
  channelId : RawId

/-- The rooms and the exception of `emitToChannel`. -/
def Observer.receives (o : Observer) (e : Emission) : Bool :=
  e.channelId = o.channelId && e.exceptUserId ≠ some o.userId

def Observer.hears (o : Observer) (es : List Emission) : List Event := (es.filter o.receives).map (·.event)

@[simp] theorem Observer.hears_append (o : Observer) (es fs : List Emission) :
    o.hears (es++fs) = o.hears es++o.hears fs := by simp [hears]

@[simp] theorem Observer.hears_nil (o : Observer) : o.hears [] = [] := rfl

/-- What a listener does on an event. -/
def Event.apply (held : Finset Reaction) : Event → Finset Reaction
  | .reactionAdded d => insert d.key held
  | .reactionRemoved d => held.erase d.key
  | .messageDeleted m _ => held.filter (·.messageId ≠ .ofText m)

/-- An insertion names a row that is absent, a removal one that is present. -/
def Event.Fits (held : Finset Reaction) : Event → Prop
  | .reactionAdded d => d.key ∉ held
  | .reactionRemoved d => d.key ∈ held
  | .messageDeleted _ _ => True

def replay (held : Finset Reaction) (es : List Event) : Finset Reaction := es.foldl Event.apply held

def AllFit : Finset Reaction → List Event → Prop
  | _, [] => True
  | held, e::es => e.Fits held ∧ AllFit (e.apply held) es

/-- The events lead from one set to the other, each one fitting. -/
def Follows (held : Finset Reaction) (es : List Event) (held' : Finset Reaction) : Prop :=
  AllFit held es ∧ replay held es = held'

namespace Follows

variable {held held' held'' : Finset Reaction} {es es' : List Event}

theorem nil (held : Finset Reaction) : Follows held [] held := ⟨trivial,rfl⟩

theorem append (h : Follows held es held') (h' : Follows held' es' held'') :
    Follows held (es++es') held'' := by
  induction es generalizing held with
  | nil =>
    obtain rfl : held = held' := h.2
    exact h'
  | cons e es ih =>
    obtain ⟨hfit,hrest⟩ := ih ⟨h.1.2,h.2⟩
    exact ⟨⟨h.1.1,hfit⟩,hrest⟩

theorem one {e : Event} (h : e.Fits held) : Follows held [e] (e.apply held) := ⟨⟨h,trivial⟩,rfl⟩

end Follows

/-! ### The table as a listener would hold it -/

def Observer.sees (o : Observer) (db : Db) (r : ReactionRow) : Bool :=
  (db.message? r.messageId).any fun m => m.channelId.text = o.channelId

/-- The reactions of the channel's messages. -/
def Observer.table (o : Observer) (db : Db) : Finset Reaction :=
  ((db.reactions.filter (o.sees db)).map ReactionRow.key).toFinset

theorem Observer.mem_table {o : Observer} {db : Db} {k : Reaction} :
    k ∈ o.table db ↔ ∃ r ∈ db.reactions, o.sees db r = true ∧ ReactionRow.key r = k := by
  simp [table,and_assoc]

/-- Distinct keys, and no reaction on a deleted message. -/
structure Tidy (db : Db) : Prop where
  keys : (db.reactions.map ReactionRow.key).Nodup
  live : ∀ r ∈ db.reactions, ∀ m, db.message? r.messageId = some m → m.isDeleted = false

/-- The message of the request is in the channel of the request. -/
def Request.Placed (r : Request) (db : Db) : Prop :=
  ∃ m, db.message? r.message = some m ∧ m.channelId.text = r.channelId

/-- The same, and the message is not deleted. -/
def Request.Live (r : Request) (db : Db) : Prop :=
  ∃ m, db.message? r.message = some m ∧ m.channelId.text = r.channelId ∧ m.isDeleted = false

theorem Request.Live.placed {r : Request} {db : Db} (h : r.Live db) : r.Placed db := by
  obtain ⟨m,hm,hc,_⟩ := h
  exact ⟨m,hm,hc⟩

section

variable {o : Observer} {r : Request} {d e : Db} {rows new : List ReactionRow} {x : ReactionRow}

theorem Request.Placed.sees (h : r.Placed d) (hx : x.messageId = r.message) :
    o.sees d x = true ↔ r.channelId = o.channelId := by
  obtain ⟨m,hm,hc⟩ := h
  simp [Observer.sees,hx,hm,hc]

theorem Observer.sees_congr (hm : e.messages = d.messages) : o.sees e = o.sees d := by
  funext x
  simp only [sees,Db.message?,hm]

/-- The table after rows of other channels have changed. -/
theorem Observer.table_of_unseen (hm : e.messages = d.messages) (hc : Changed rows new d e)
    (hrows : ∀ x ∈ rows, o.sees d x = false) (hnew : ∀ x ∈ new, o.sees d x = false) :
    o.table e = o.table d := by
  ext k
  rw [mem_table,mem_table,hc,sees_congr hm]
  constructor
  · rintro ⟨x,hx,hs,rfl⟩
    rcases List.mem_append.mp hx with hx | hx
    · exact ⟨x,List.mem_of_mem_filter hx,hs,rfl⟩
    · rw [hnew x hx] at hs
      simp at hs
  · rintro ⟨x,hx,hs,rfl⟩
    refine ⟨x,List.mem_append_left _ (List.mem_filter.mpr ⟨hx,?_⟩),hs,rfl⟩
    simp only [decide_not,Bool.not_eq_true',decide_eq_false_iff_not]
    intro hin
    rw [hrows x hin] at hs
    simp at hs

/-- The table after a request has changed rows of its message and user. -/
theorem Observer.table_of_seen (hm : e.messages = d.messages) (hc : Changed rows new d e)
    (hkeys : (d.reactions.map ReactionRow.key).Nodup) (hsub : ∀ x ∈ rows, x ∈ d.reactions)
    (hnew : ∀ x ∈ new, o.sees d x = true) :
    o.table e = (o.table d \ (rows.map ReactionRow.key).toFinset) ∪ (new.map ReactionRow.key).toFinset := by
  ext k
  simp only [mem_table,Finset.mem_union,Finset.mem_sdiff,List.mem_toFinset,List.mem_map]
  rw [hc,sees_congr hm]
  constructor
  · rintro ⟨x,hx,hs,rfl⟩
    rcases List.mem_append.mp hx with hx | hx
    · obtain ⟨hin,hout⟩ := List.mem_filter.mp hx
      refine .inl ⟨⟨x,hin,hs,rfl⟩,?_⟩
      rintro ⟨y,hy,hk⟩
      obtain rfl : y = x := List.inj_on_of_nodup_map hkeys (hsub y hy) hin hk
      simp [hy] at hout
    · exact .inr ⟨x,hx,rfl⟩
  · rintro (⟨⟨x,hx,hs,rfl⟩,hout⟩ | ⟨x,hx,rfl⟩)
    · refine ⟨x,List.mem_append_left _ (List.mem_filter.mpr ⟨hx,?_⟩),hs,rfl⟩
      simp only [decide_not,Bool.not_eq_true',decide_eq_false_iff_not]
      exact fun hin => hout ⟨x,hin,rfl⟩
    · exact ⟨x,List.mem_append_right _ hx,hnew x hx,rfl⟩

/-! ### The events of a call -/

theorem Observer.receives_broadcast (ho : r.actor.id ≠ o.userId) (v : Event) :
    o.receives (r.broadcast v) = decide (r.channelId = o.channelId) := by
  have hexcept : some r.actor.id ≠ some o.userId := fun h => ho (Option.some.inj h)
  simp only [receives,Request.broadcast,hexcept,ne_eq,not_false_eq_true,decide_true,Bool.and_true]
  congr

theorem Observer.hears_broadcasts (ho : r.actor.id ≠ o.userId) (vs : List Event) :
    o.hears (vs.map r.broadcast) = if r.channelId = o.channelId then vs else [] := by
  induction vs with
  | nil => simp
  | cons v vs ih =>
    have hsplit : o.hears ((v::vs).map r.broadcast) = o.hears [r.broadcast v]++o.hears (vs.map r.broadcast) :=
      o.hears_append [r.broadcast v] (vs.map r.broadcast)
    rw [hsplit,ih,hears,List.filter_cons,receives_broadcast ho]
    split <;> simp_all [Request.broadcast]

/-- The events of a result, without their rooms. -/
def Request.addedEvents (r : Request) (res : AddReactionResult) : List Event :=
  res.replaced.map (fun e => .reactionRemoved (r.data e))++
    if res.action = .added then [.reactionAdded (r.data r.emoji)] else []

theorem Request.added_eq (r : Request) (res : AddReactionResult) :
    r.added res = (r.addedEvents res).map r.broadcast := by
  unfold added addedEvents
  split <;> simp

/-- Removals of distinct emojis, each of them held. -/
theorem follows_removed (r : Request) {es : List String} {held : Finset Reaction} (hn : es.Nodup)
    (hin : ∀ e ∈ es, (r.data e).key ∈ held) :
    Follows held (es.map fun e => .reactionRemoved (r.data e))
      (held \ (es.map fun e => (r.data e).key).toFinset) := by
  induction es generalizing held with
  | nil => simpa using Follows.nil held
  | cons e es ih =>
    obtain ⟨hnot,hn⟩ := List.nodup_cons.mp hn
    have hone : Follows held [.reactionRemoved (r.data e)] (held.erase (r.data e).key) :=
      .one (hin e List.mem_cons_self)
    have hrest := @ih (held.erase (r.data e).key) hn fun e' he' => by
      refine Finset.mem_erase.mpr ⟨?_,hin e' (List.mem_cons_of_mem _ he')⟩
      intro hk
      have : e' = e := congrArg Reaction.emoji hk
      exact hnot (this ▸ he')
    have hset : held.erase (r.data e).key \ (es.map fun e => (r.data e).key).toFinset =
        held \ ((e::es).map fun e => (r.data e).key).toFinset := by
      rw [List.map_cons,List.toFinset_cons,Finset.sdiff_insert,Finset.erase_sdiff_comm]
    rw [← hset]
    exact hone.append hrest

theorem replaceable_key (h : r.replaceable x = true) : ReactionRow.key x = (r.data x.emoji).key := by
  obtain ⟨hm,hu⟩ := r.of_pair (.inl h)
  simp [ReactionRow.key,ReactionData.key,Request.data,hu,hm,Request.message]

theorem removable_key : r.removable x = true ↔ ReactionRow.key x = (r.data r.emoji).key := by
  simp only [Request.removable,Bool.and_eq_true,decide_eq_true_eq,ReactionRow.key,ReactionData.key,
    Request.data,Reaction.mk.injEq]
  constructor
  · rintro ⟨⟨hm,hu⟩,he⟩
    exact ⟨hu,hm,he⟩
  · rintro ⟨hu,hm,he⟩
    exact ⟨⟨hm,hu⟩,he⟩

/-- The broadcasts of `addReaction` tell its change of the table. -/
theorem Request.follows_added {res : AddReactionResult} (ht : Tidy d) (hp : r.Placed d)
    (hm : e.messages = d.messages) (hrows : rows = d.reactions.filter r.replaceable)
    (hres : res.replaced = rows.map (·.emoji)) (hc : Changed rows new d e)
    (hcase : res.action = .alreadyExists ∧ new = [] ∨
      res.action = .added ∧ (∃ id, new = [r.row id]) ∧ ∀ x ∈ d.reactions, r.removable x = false)
    (ho : r.actor.id ≠ o.userId) : Follows (o.table d) (o.hears (r.added res)) (o.table e) := by
  have hfound : ∀ x ∈ rows, x ∈ d.reactions ∧ r.replaceable x = true := by
    rw [hrows]
    exact fun x hx => List.mem_filter.mp hx
  have hseen : ∀ x ∈ rows++new, x.messageId = r.message := by
    intro x hx
    rcases List.mem_append.mp hx with hx | hx
    · exact (r.of_pair (.inl (hfound x hx).2)).1
    · rcases hcase with ⟨_,rfl⟩ | ⟨_,⟨id,rfl⟩,_⟩
      · simp at hx
      · obtain rfl := List.mem_singleton.mp hx
        rfl
  rw [r.added_eq,o.hears_broadcasts ho]
  split
  · rename_i hroom
    have hsees : ∀ x ∈ rows++new, o.sees d x = true := fun x hx => (hp.sees (hseen x hx)).mpr hroom
    have hkeys : (rows.map fun x => (r.data x.emoji).key) = rows.map ReactionRow.key :=
      List.map_congr_left fun x hx => (replaceable_key (hfound x hx).2).symm
    have hrowkeys : (rows.map fun x => (r.data x.emoji).key).Nodup := by
      rw [hkeys,hrows]
      exact ht.keys.sublist (List.filter_sublist.map _)
    have hnodup : res.replaced.Nodup := by
      rw [hres]
      exact List.Nodup.of_map (fun e => (r.data e).key) (by rw [List.map_map]; exact hrowkeys)
    have hremoved := @follows_removed r _ (o.table d) hnodup fun e he => by
      rw [hres] at he
      obtain ⟨x,hx,rfl⟩ := List.mem_map.mp he
      exact Observer.mem_table.mpr ⟨x,(hfound x hx).1,hsees x (List.mem_append_left _ hx),
        replaceable_key (hfound x hx).2⟩
    have hset : (res.replaced.map fun e => (r.data e).key) = rows.map ReactionRow.key := by
      rw [hres,List.map_map]
      exact hkeys
    rw [hset] at hremoved
    rw [o.table_of_seen hm hc ht.keys (fun x hx => (hfound x hx).1)
      fun x hx => hsees x (List.mem_append_right _ hx)]
    rcases hcase with ⟨ha,rfl⟩ | ⟨ha,⟨id,rfl⟩,hnone⟩
    · simpa [Request.addedEvents,ha] using hremoved
    · have habsent : (r.data r.emoji).key ∉ o.table d \ (rows.map ReactionRow.key).toFinset := by
        intro hin
        obtain ⟨x,hx,_,hk⟩ := Observer.mem_table.mp (Finset.mem_sdiff.mp hin).1
        have := hnone x hx
        rw [removable_key.mpr hk] at this
        simp at this
      have hadded : Follows (o.table d \ (rows.map ReactionRow.key).toFinset) [.reactionAdded (r.data r.emoji)]
          (insert (r.data r.emoji).key (o.table d \ (rows.map ReactionRow.key).toFinset)) := .one habsent
      have hnew : ([r.row id].map ReactionRow.key).toFinset = {(r.data r.emoji).key} := rfl
      rw [hnew,Finset.union_comm,← Finset.insert_eq]
      simpa [Request.addedEvents,ha] using hremoved.append hadded
  · rename_i hroom
    have hblind : ∀ x ∈ rows++new, o.sees d x = false := by
      intro x hx
      have := hp.sees (o := o) (hseen x hx)
      simpa [hroom] using this
    rw [o.table_of_unseen hm hc (fun x hx => hblind x (List.mem_append_left _ hx))
      fun x hx => hblind x (List.mem_append_right _ hx)]
    exact .nil _

/-- The broadcast of `removeReaction` tells its change of the table. -/
theorem Request.follows_removed_one (ht : Tidy d) (hp : r.Placed d) (hm : e.messages = d.messages)
    (hrows : rows = d.reactions.filter r.removable) (hc : Changed rows [] d e) (ho : r.actor.id ≠ o.userId) :
    Follows (o.table d) (o.hears (if !rows.isEmpty then [r.removed] else [])) (o.table e) := by
  have hfound : ∀ x ∈ rows, x ∈ d.reactions ∧ r.removable x = true := by
    rw [hrows]
    exact fun x hx => List.mem_filter.mp hx
  have hevents : (if !rows.isEmpty then [r.removed] else []) =
      (if !rows.isEmpty then [Event.reactionRemoved (r.data r.emoji)] else []).map r.broadcast := by
    split <;> rfl
  rw [hevents,o.hears_broadcasts ho]
  split
  · rename_i hroom
    have hsees : ∀ x ∈ rows, o.sees d x = true := fun x hx =>
      (hp.sees (r.of_pair (.inr (hfound x hx).2)).1).mpr hroom
    rw [o.table_of_seen hm hc ht.keys (fun x hx => (hfound x hx).1) (by simp)]
    cases hcases : rows with
    | nil => simpa using Follows.nil (o.table d)
    | cons x xs =>
      have hx : x ∈ rows := by simp [hcases]
      have hkey : ∀ y ∈ rows, ReactionRow.key y = (r.data r.emoji).key := fun y hy =>
        removable_key.mp (hfound y hy).2
      have hset : ((x::xs).map ReactionRow.key).toFinset = {(r.data r.emoji).key} := by
        ext k
        simp only [List.mem_toFinset,List.mem_map,Finset.mem_singleton,← hcases]
        exact ⟨fun ⟨y,hy,hk⟩ => hk ▸ hkey y hy,fun hk => ⟨x,hx,(hkey x hx).trans hk.symm⟩⟩
      have hin : (r.data r.emoji).key ∈ o.table d :=
        Observer.mem_table.mpr ⟨x,(hfound x hx).1,hsees x hx,hkey x hx⟩
      have hone : Follows (o.table d) [.reactionRemoved (r.data r.emoji)]
          ((o.table d).erase (r.data r.emoji).key) := .one hin
      rw [hset]
      simpa [Finset.sdiff_singleton_eq_erase] using hone
  · rename_i hroom
    have hblind : ∀ x ∈ rows, o.sees d x = false := by
      intro x hx
      have := hp.sees (o := o) (r.of_pair (.inr (hfound x hx).2)).1
      simpa [hroom] using this
    rw [o.table_of_unseen hm hc hblind (by simp)]
    exact .nil _

/-! ### The deletion of a message -/

/-- The message of the deletion, in the channel it was found in. -/
def HasMessage (i : RawId) (c : Uuid) (db : Db) : Prop :=
  ∃ m, db.message? (.ofText i) = some m ∧ m.channelId = c

theorem message?_wipe {m i : Uuid} (h : e.messages = d.messages.map (·.wipeIf m)) :
    e.message? i = (d.message? i).map (·.wipeIf m) := by
  simp only [Db.message?,h,List.find?_map]
  congr 2
  funext r
  simp only [Function.comp_def,MessageRow.wipeIf]
  split <;> rfl

theorem Observer.sees_wipe {m : Uuid} (h : e.messages = d.messages.map (·.wipeIf m)) (x : ReactionRow) :
    o.sees e x = o.sees d x := by
  rw [sees,sees,message?_wipe h]
  cases d.message? x.messageId with
  | none => rfl
  | some r =>
    simp only [Option.map_some,Option.any_some,MessageRow.wipeIf]
    split <;> rfl

/-- `message:deleted` tells that the message has no reactions. -/
theorem follows_deleted {i : RawId} {c : Uuid} (hmsg : HasMessage i c d)
    (hsees : ∀ x, o.sees e x = o.sees d x)
    (hrows : ∀ x, x ∈ e.reactions ↔ x ∈ d.reactions ∧ x.messageId ≠ .ofText i) :
    Follows (o.table d) (o.hears [DeleteMessage.deleted i c]) (o.table e) := by
  obtain ⟨m,hm,hc⟩ := hmsg
  by_cases hroom : c.text = o.channelId
  · have hears : o.hears [DeleteMessage.deleted i c] = [.messageDeleted i c.text] := by
      simp [Observer.hears,Observer.receives,DeleteMessage.deleted,hroom]
    have hone : Follows (o.table d) [.messageDeleted i c.text]
        ((o.table d).filter (·.messageId ≠ .ofText i)) := .one trivial
    have htable : o.table e = (o.table d).filter (·.messageId ≠ .ofText i) := by
      ext k
      simp only [Finset.mem_filter,Observer.mem_table,hsees,hrows]
      constructor
      · rintro ⟨x,⟨hx,hne⟩,hs,rfl⟩
        exact ⟨⟨x,hx,hs,rfl⟩,hne⟩
      · rintro ⟨⟨x,hx,hs,rfl⟩,hne⟩
        exact ⟨x,⟨hx,hne⟩,hs,rfl⟩
    rw [hears,htable]
    exact hone
  · have hears : o.hears [DeleteMessage.deleted i c] = [] := by
      simp [Observer.hears,Observer.receives,DeleteMessage.deleted,hroom]
    have hblind : ∀ x, x.messageId = .ofText i → o.sees d x = false := by
      intro x hx
      simp [Observer.sees,hx,hm,hc,hroom]
    have htable : o.table e = o.table d := by
      ext k
      simp only [Observer.mem_table,hsees,hrows]
      constructor
      · rintro ⟨x,⟨hx,_⟩,hs,rfl⟩
        exact ⟨x,hx,hs,rfl⟩
      · rintro ⟨x,hx,hs,rfl⟩
        refine ⟨x,⟨hx,fun hxm => ?_⟩,hs,rfl⟩
        rw [hblind x hxm] at hs
        simp at hs
    rw [hears,htable]
    exact .nil _

/-! ### The tables stay tidy -/

theorem Tidy.delete (h : Tidy d) (hm : e.messages = d.messages) (hc : Changed rows [] d e) : Tidy e := by
  rw [Changed,List.append_nil] at hc
  refine ⟨?_,fun x hx m hmsg => h.live x ?_ m ?_⟩
  · rw [hc]
    exact h.keys.sublist (List.filter_sublist.map _)
  · rw [hc] at hx
    exact List.mem_of_mem_filter hx
  · rwa [Db.message?,hm] at hmsg

theorem Tidy.insert {id : Uuid} (h : Tidy d) (hlive : r.Live d) (hm : e.messages = d.messages)
    (hc : Changed rows [r.row id] d e) (hnone : ∀ x ∈ d.reactions, r.removable x = false) : Tidy e := by
  constructor
  · rw [hc,List.map_append,List.nodup_append]
    refine ⟨h.keys.sublist (List.filter_sublist.map _),by simp,?_⟩
    intro k hk k' hk' he
    obtain ⟨x,hx,rfl⟩ := List.mem_map.mp hk
    have hkey : k' = ReactionRow.key (r.row id) := by simpa using hk'
    obtain rfl : k' = (r.data r.emoji).key := hkey
    have := hnone x (List.mem_of_mem_filter hx)
    rw [removable_key.mpr he] at this
    simp at this
  · intro x hx m hmsg
    rw [Db.message?,hm] at hmsg
    rw [hc] at hx
    rcases List.mem_append.mp hx with hx | hx
    · exact h.live x (List.mem_of_mem_filter hx) m hmsg
    · obtain rfl := List.mem_singleton.mp hx
      obtain ⟨m',hm',_,hdel⟩ := hlive
      obtain rfl := Option.some.inj (hm'.symm.trans hmsg)
      exact hdel

theorem Tidy.sweep {m : Uuid} (h : Tidy d) (hm : e.messages = d.messages.map (·.wipeIf m))
    (hc : Changed rows [] d e) (hrows : rows = d.reactions.filter fun x => x.messageId = m) : Tidy e := by
  rw [Changed,List.append_nil] at hc
  refine ⟨?_,fun x hx s hmsg => ?_⟩
  · rw [hc]
    exact h.keys.sublist (List.filter_sublist.map _)
  · rw [hc] at hx
    obtain ⟨hin,hout⟩ := List.mem_filter.mp hx
    have hne : x.messageId ≠ m := by
      intro he
      simp [hrows,hin,he] at hout
    rw [message?_wipe hm] at hmsg
    obtain ⟨s,hs,rfl⟩ := Option.map_eq_some_iff.mp hmsg
    have hid : s.id ≠ m := by
      have := List.find?_some hs
      simp only [decide_eq_true_eq] at this
      rwa [this]
    rw [MessageRow.wipeIf,if_neg hid]
    exact h.live x hin s hs

end

/-! ### One call at a time -/

def Call.finished : Call → Bool
  | .add (.done _) => true
  | .add (.failed _) => true
  | .remove (.done _) => true
  | .remove (.failed _) => true
  | .delete (.done _ _) => true
  | .delete (.failed _) => true
  | _ => false

/-- The user who reacts or takes a reaction back, while the call runs. -/
def Call.actor? : Call → Option Uuid
  | .add (.load r) => some r.actor.id
  | .add (.lock r) => some r.actor.id
  | .add (.remove r) => some r.actor.id
  | .add (.removing r _) => some r.actor.id
  | .add (.insert r _) => some r.actor.id
  | .add (.commit r _) => some r.actor.id
  | .remove (.load r) => some r.actor.id
  | .remove (.remove r) => some r.actor.id
  | .remove (.removing r _) => some r.actor.id
  | _ => none

/-- What a call has committed and not sent. -/
def Call.unsent : Call → List Emission
  | .add (.broadcast r res) => r.added res
  | .remove (.broadcast r deleted) => if deleted then [r.removed] else []
  | .delete (.emit i c) => [DeleteMessage.deleted i c]
  | _ => []

/-- What the only unfinished call knows. -/
def AddReaction.Alone (p : ℕ) (pg : Postgres) : AddReaction → Prop
  | .lock r => pg.pending p = [] ∧ r.Live pg.db
  | .remove r => pg.pending p = [] ∧ r.Live pg.db
  | .removing r rows => pg.pending p = [] ∧ r.Live pg.db ∧ rows = pg.db.reactions.filter r.replaceable
  | .insert r replaced => ∃ rows, pg.pending p = [.deleteReactions rows] ∧ r.Live pg.db ∧
      rows = pg.db.reactions.filter r.replaceable ∧ replaced = rows.map (·.emoji)
  | .commit r res => ∃ rows new, pg.pending p = .deleteReactions rows::new.map .insertReaction ∧ r.Live pg.db ∧
      rows = pg.db.reactions.filter r.replaceable ∧ res.replaced = rows.map (·.emoji) ∧
        (res.action = .alreadyExists ∧ new = [] ∨
          res.action = .added ∧ (∃ id, new = [r.row id]) ∧ ∀ x ∈ pg.db.reactions, r.removable x = false)
  | .rollback _ => True
  | _ => pg.pending p = []

def RemoveReaction.Alone (p : ℕ) (pg : Postgres) : RemoveReaction → Prop
  | .remove r => pg.pending p = [] ∧ r.Placed pg.db
  | .removing r rows => pg.pending p = [] ∧ r.Placed pg.db ∧ rows = pg.db.reactions.filter r.removable
  | _ => pg.pending p = []

/-- The reactions of the message that the tables have. -/
def reactionsOf (db : Db) (m : Uuid) : List ReactionRow := db.reactions.filter fun x => x.messageId = m

def DeleteMessage.Alone (p : ℕ) (pg : Postgres) : DeleteMessage → Prop
  | .wipe i c => HasMessage i c pg.db ∧ pg.pending p = []
  | .sweep i c => HasMessage i c pg.db ∧ Writes (.ofText i) [] (pg.pending p)
  | .sweeping i c rows => HasMessage i c pg.db ∧ Writes (.ofText i) [] (pg.pending p) ∧
      rows = reactionsOf pg.db (.ofText i)
  | .lock i c => HasMessage i c pg.db ∧ Writes (.ofText i) (reactionsOf pg.db (.ofText i)) (pg.pending p)
  | .previous i c => HasMessage i c pg.db ∧ Writes (.ofText i) (reactionsOf pg.db (.ofText i)) (pg.pending p)
  | .lastMessage i c _ =>
    HasMessage i c pg.db ∧ Writes (.ofText i) (reactionsOf pg.db (.ofText i)) (pg.pending p)
  | .commit i c => HasMessage i c pg.db ∧ Writes (.ofText i) (reactionsOf pg.db (.ofText i)) (pg.pending p)
  | .rollback _ => True
  | _ => pg.pending p = []

def Call.Alone (p : ℕ) (pg : Postgres) : Call → Prop
  | .add q => q.Alone p pg
  | .remove q => q.Alone p pg
  | .delete q => q.Alone p pg

/-- A step adds the events of its change of the table to what is sent or waits to be sent. -/
structure Progress (p : ℕ) (q q' : Call) (w w' : World) : Prop where
  alone : q'.Alone p w'.pg
  tidy : Tidy w'.pg.db
  others : ∀ r, r ≠ p → w'.pg.pending r = w.pg.pending r
  actor : q'.actor? = q.actor? ∨ q'.actor? = none
  follows : ∃ fresh, w'.emitted++q'.unsent = w.emitted++q.unsent++fresh ∧
    ∀ o : Observer, q.actor? ≠ some o.userId → Follows (o.table w.pg.db) (o.hears fresh) (o.table w'.pg.db)

namespace Progress

variable {p : ℕ} {q q' : Call} {w w' : World} {pg pg' : Postgres}

/-- Nothing is committed and nothing is sent. -/
theorem still (ht : Tidy w.pg.db) (hdb : pg.db = w.pg.db) (hother : ∀ r, r ≠ p → pg.pending r = w.pg.pending r)
    (ha : q'.Alone p pg) (hactor : q'.actor? = q.actor? ∨ q'.actor? = none) (hq : q.unsent = [])
    (hq' : q'.unsent = []) : Progress p q q' w { w with pg := pg } where
  alone := ha
  tidy := by rwa [hdb]
  others := hother
  actor := hactor
  follows := ⟨[],by simp [hq,hq'],fun o _ => by rw [hdb]; exact .nil _⟩

theorem same (ht : Tidy w.pg.db) (ha : q'.Alone p w.pg) (hactor : q'.actor? = q.actor? ∨ q'.actor? = none)
    (hq : q.unsent = []) (hq' : q'.unsent = []) : Progress p q q' w w :=
  still ht rfl (fun _ _ => rfl) ha hactor hq hq'

theorem statement {ls : List (Lockable × Mode)} {ws : List Change} (ht : Tidy w.pg.db)
    (hs : w.pg.statement p ls ws = some pg) (ha : q'.Alone p pg)
    (hactor : q'.actor? = q.actor? ∨ q'.actor? = none) (hq : q.unsent = []) (hq' : q'.unsent = []) :
    Progress p q q' w { w with pg := pg } := by
  have hrely : (Discipline.free Db Lockable).Guarantee p w.pg pg := .statement hs
  exact still ht (Pg.statement_spec hs).1 (fun r hr => (hrely r hr).pending) ha hactor hq hq'

theorem acquire {ls : List (Lockable × Mode)} (ht : Tidy w.pg.db) (hs : w.pg.acquire p ls = some pg)
    (ha : q'.Alone p pg) (hactor : q'.actor? = q.actor? ∨ q'.actor? = none) (hq : q.unsent = [])
    (hq' : q'.unsent = []) : Progress p q q' w { w with pg := pg } := by
  obtain ⟨hdb,hpend,_⟩ := Pg.acquire_spec hs
  exact still ht hdb (fun r _ => by rw [hpend]) ha hactor hq hq'

theorem rollback (ht : Tidy w.pg.db) (ha : q'.Alone p (w.pg.rollback p)) (hactor : q'.actor? = none)
    (hq : q.unsent = []) (hq' : q'.unsent = []) : Progress p q q' w { w with pg := w.pg.rollback p } :=
  still ht rfl (fun r hr => by simp [Pg.rollback,hr]) ha (.inr hactor) hq hq'

/-- What waited is sent. -/
theorem send (ht : Tidy w.pg.db) (ha : q'.Alone p w.pg) (hactor : q'.actor? = none) (hq' : q'.unsent = []) :
    Progress p q q' w (w.emit q.unsent) where
  alone := ha
  tidy := ht
  others _ _ := rfl
  actor := .inr hactor
  follows := ⟨[],by simp [World.emit,hq'],fun o _ => .nil _⟩

/-- The tables change, and the events that tell it wait. -/
theorem change (ht : Tidy pg.db) (hother : ∀ r, r ≠ p → pg.pending r = w.pg.pending r) (ha : q'.Alone p pg)
    (hactor : q'.actor? = none) (hq : q.unsent = []) (hf : ∀ o : Observer, q.actor? ≠ some o.userId →
      Follows (o.table w.pg.db) (o.hears q'.unsent) (o.table pg.db)) : Progress p q q' w { w with pg := pg } where
  alone := ha
  tidy := ht
  others := hother
  actor := .inr hactor
  follows := ⟨q'.unsent,by simp [hq],hf⟩

end Progress

/-! ### What each step adds -/

variable {hash : String → ℤ} {p : ℕ} {ch : Choice} {w w' : World} {pg : Postgres}

theorem loadTarget_placed {r : Request} {db : Db} {t : Target} (h : r.loadTarget db = .ok t) :
    ∃ m, db.message? r.message = some m ∧ m.channelId.text = r.channelId ∧ t.isDeleted = m.isDeleted := by
  unfold Request.loadTarget target? at h
  cases hm : db.message? r.message with
  | none => simp [hm] at h
  | some m =>
    simp only [hm,Option.map_some] at h
    split_ifs at h with hc hu
    obtain rfl := Except.ok.inj h
    exact ⟨m,rfl,not_not.mp hc,rfl⟩

theorem returning_filter (db : Db) (P : ReactionRow → Bool) :
    returning db (db.reactions.filter P) = db.reactions.filter P := by
  refine List.filter_congr fun x hx => ?_
  simp [hx]

/-- The tables after the commit of `addReaction`. -/
theorem view_added {rows new : List ReactionRow}
    (h : pg.pending p = .deleteReactions rows::new.map .insertReaction) (hn : new.length ≤ 1) :
    Changed rows new pg.db (pg.view p) ∧ (pg.view p).messages = pg.db.messages := by
  match new, hn with
  | [], _ => exact ⟨by rw [Changed,view_delete h,List.append_nil],by simp [Pg.view,h,Writable.apply,apply]⟩
  | [x], _ => exact ⟨view_insert h,by simp [Pg.view,h,Writable.apply,apply]⟩

/-- An open transaction has nothing to send. -/
theorem AddReaction.unsent_of_inTransaction {q : AddReaction} (h : q.inTransaction = true) :
    (Call.add q).unsent = [] := by
  cases q with
  | broadcast r res => simp [AddReaction.inTransaction] at h
  | _ => rfl

theorem DeleteMessage.unsent_of_inTransaction {q : DeleteMessage} (h : q.inTransaction = true) :
    (Call.delete q).unsent = [] := by
  cases q with
  | emit i c => simp [DeleteMessage.inTransaction] at h
  | _ => rfl

theorem AddReaction.progress {q q' : AddReaction} (ht : Tidy w.pg.db) (h : q.Alone p w.pg)
    (hq : q.step hash p ch w = some (q',w')) : Progress p (.add q) (.add q') w w' := by
  cases AddReaction.edge hq with
  | refused err => exact .same ht h (.inr rfl) rfl rfl
  | @checked r t hload hdel =>
    obtain ⟨m,hm,hc,hm'⟩ := loadTarget_placed hload
    have halone : (AddReaction.lock r).Alone p w.pg := ⟨h,m,hm,hc,hm' ▸ hdel⟩
    exact .same ht halone (.inl rfl) rfl rfl
  | abort hin err => exact .same ht trivial (.inr rfl) (unsent_of_inTransaction hin) rfl
  | @locked r pg hpg =>
    obtain ⟨hdb,hpend,_⟩ := Pg.acquire_spec hpg
    have halone : (AddReaction.remove r).Alone p pg := ⟨by rw [hpend]; exact h.1,by rw [hdb]; exact h.2⟩
    exact .acquire ht hpg halone (.inl rfl) rfl rfl
  | @found r =>
    have hview : w.pg.view p = w.pg.db := by simp [Pg.view,h.1]
    have halone : (AddReaction.removing r ((w.pg.view p).reactions.filter r.replaceable)).Alone p w.pg :=
      ⟨h.1,h.2,by rw [hview]⟩
    exact .same ht halone (.inl rfl) rfl rfl
  | @removed r rows pg hpg =>
    obtain ⟨hp,hlive,hrows⟩ := h
    obtain ⟨hdb,hpend,_,_⟩ := Pg.statement_spec hpg
    have hview : w.pg.view p = w.pg.db := by simp [Pg.view,hp]
    have halone : (AddReaction.insert r ((returning (w.pg.view p) rows).map (·.emoji))).Alone p pg := by
      refine ⟨rows,by rw [hpend,hp]; rfl,by rwa [hdb],by rwa [hdb],?_⟩
      rw [hview,hrows,returning_filter]
    exact .statement ht hpg halone (.inl rfl) rfl rfl
  | @inserted r replaced pg inserted hi =>
    obtain ⟨rows,hp,hlive,hrows,hrep⟩ := h
    obtain ⟨rfl,rfl⟩ | ⟨rfl,hnone,hst⟩ := insertReaction_eq hi
    · have halone : (AddReaction.commit r ⟨.alreadyExists,replaced⟩).Alone p w.pg :=
        ⟨rows,[],hp,hlive,hrows,hrep,.inl ⟨rfl,rfl⟩⟩
      exact .same ht halone (.inl rfl) rfl rfl
    · obtain ⟨hdb,hpend,_,_⟩ := Pg.statement_spec hst
      have halone : (AddReaction.commit r ⟨.added,replaced⟩).Alone p pg := by
        refine ⟨rows,[r.row (ch.ids.headD 0)],by rw [hpend,hp]; rfl,by rwa [hdb],by rwa [hdb],hrep,
          .inr ⟨rfl,⟨_,rfl⟩,fun x hx => ?_⟩⟩
        rw [hdb] at hx
        by_cases hm : x ∈ rows
        · rw [hrows] at hm
          have := (List.mem_filter.mp hm).2
          simp only [Request.replaceable,Request.removable,Bool.and_eq_true,decide_eq_true_eq] at this ⊢
          simp [this.2]
        · rw [removable_eq r (ch.ids.headD 0)]
          refine hnone x ?_
          rw [view_delete hp]
          exact List.mem_filter.mpr ⟨hx,by simpa using hm⟩
      exact .statement ht hst halone (.inl rfl) rfl rfl
  | @committed r res =>
    obtain ⟨rows,new,hp,hlive,hrows,hres,hcase⟩ := h
    have hone : new.length ≤ 1 := by
      rcases hcase with ⟨_,rfl⟩ | ⟨_,⟨id,rfl⟩,_⟩ <;> simp
    obtain ⟨hc,hm⟩ := view_added hp hone
    have htidy : Tidy (w.pg.view p) := by
      rcases hcase with ⟨_,rfl⟩ | ⟨_,⟨id,rfl⟩,hnone⟩
      · exact ht.delete hm hc
      · exact ht.insert hlive hm hc hnone
    refine .change htidy (fun s hs => by simp [Pg.commit,hs]) (Pg.Idle.commit w.pg p).pending rfl rfl
      fun o ho => ?_
    exact r.follows_added ht hlive.placed hm hrows hres hc hcase fun he => ho (congrArg some he)
  | rolledBack => exact .rollback ht (Pg.Idle.rollback w.pg p).pending rfl rfl rfl
  | told => exact .send ht h rfl rfl

theorem RemoveReaction.progress {q q' : RemoveReaction} (ht : Tidy w.pg.db) (h : q.Alone p w.pg)
    (hq : q.step p ch w = some (q',w')) : Progress p (.remove q) (.remove q') w w' := by
  cases RemoveReaction.edge hq with
  | refused err => exact .same ht h (.inr rfl) rfl rfl
  | @checked r t hload =>
    obtain ⟨m,hm,hc,_⟩ := loadTarget_placed hload
    have halone : (RemoveReaction.remove r).Alone p w.pg := ⟨h,m,hm,hc⟩
    exact .same ht halone (.inl rfl) rfl rfl
  | lost err => exact .same ht h.1 (.inr rfl) rfl rfl
  | @found r =>
    have halone : (RemoveReaction.removing r (w.pg.db.reactions.filter r.removable)).Alone p w.pg :=
      ⟨h.1,h.2,rfl⟩
    exact .same ht halone (.inl rfl) rfl rfl
  | abort err => exact .same ht h.1 (.inr rfl) rfl rfl
  | @removed r rows pg hpg =>
    obtain ⟨hp,hplaced,hrows⟩ := h
    obtain ⟨_,rfl⟩ := Pg.auto_eq hpg
    have hc : Changed rows [] w.pg.db (applyAll [Change.deleteReactions rows] w.pg.db) := by
      simp [Changed,Writable.apply,apply]
    have hret : returning w.pg.db rows = rows := by
      rw [hrows]
      exact returning_filter _ _
    rw [hret]
    refine .change (ht.delete rfl hc) (fun _ _ => rfl) hp rfl rfl fun o ho => ?_
    exact r.follows_removed_one ht hplaced rfl hrows hc fun he => ho (congrArg some he)
  | told => exact .send ht h rfl rfl

theorem DeleteMessage.progress {q q' : DeleteMessage} (ht : Tidy w.pg.db) (h : q.Alone p w.pg)
    (hq : q.step p ch w = some (q',w')) : Progress p (.delete q) (.delete q') w w' := by
  have hlock : ∀ {q q' : DeleteMessage} {c : Uuid} {pg : Postgres}, lockChannel w.pg p c = some pg →
      (∀ pg : Postgres, pg.db = w.pg.db → pg.pending = w.pg.pending → q'.Alone p pg) →
      (Call.delete q').actor? = none → (Call.delete q).unsent = [] → (Call.delete q').unsent = [] →
      Progress p (.delete q) (.delete q') w { w with pg := pg } := by
    intro q q' c pg hpg halone hactor hq hq'
    rcases lockChannel_eq hpg with rfl | hacq
    · exact .same ht (halone _ rfl rfl) (.inr hactor) hq hq'
    · obtain ⟨hdb,hpend,_⟩ := Pg.acquire_spec hacq
      exact .acquire ht hacq (halone _ hdb hpend) (.inr hactor) hq hq'
  cases DeleteMessage.edge hq with
  | refused err => exact .same ht h (.inr rfl) rfl rfl
  | @again u i m hm hdel =>
    refine .change ht (fun _ _ => rfl) h rfl rfl fun o _ => ?_
    refine follows_deleted ⟨m,hm,rfl⟩ (fun x => rfl) fun x => ⟨fun hx => ⟨hx,fun hxm => ?_⟩,And.left⟩
    have hlive := ht.live x hx m (by rw [hxm]; exact hm)
    simp [hdel] at hlive
  | @selected u i m hm =>
    have halone : (DeleteMessage.wipe i m.channelId).Alone p w.pg := ⟨⟨m,hm,rfl⟩,h⟩
    exact .same ht halone (.inl rfl) rfl rfl
  | abort hin err => exact .same ht trivial (.inr rfl) (unsent_of_inTransaction hin) rfl
  | @wiped i c pg hpg =>
    obtain ⟨hdb,hpend,_,_⟩ := Pg.statement_spec hpg
    have halone : (DeleteMessage.sweep i c).Alone p pg := by
      refine ⟨by rw [hdb]; exact h.1,?_⟩
      rw [hpend,h.2]
      exact .wipe _
    exact .statement ht hpg halone (.inl rfl) rfl rfl
  | @found i c =>
    have hview : (w.pg.view p).reactions = w.pg.db.reactions := by simp [Pg.view,h.2.reactions]
    have halone : (DeleteMessage.sweeping i c (reactionsOf (w.pg.view p) (.ofText i))).Alone p w.pg :=
      ⟨h.1,h.2,by rw [reactionsOf,reactionsOf,hview]⟩
    exact .same ht halone (.inl rfl) rfl rfl
  | @swept i c rows pg hpg =>
    obtain ⟨hmsg,hw,rfl⟩ := h
    obtain ⟨hdb,hpend,_,_⟩ := Pg.statement_spec hpg
    have halone : (DeleteMessage.lock i c).Alone p pg := by
      refine ⟨by rwa [hdb],?_⟩
      rw [hpend,hdb]
      exact hw.delete
    exact .statement ht hpg halone (.inl rfl) rfl rfl
  | last hpg =>
    exact hlock hpg (fun pg hdb hpend => ⟨by rw [hdb]; exact h.1,by rw [hdb,hpend]; exact h.2⟩) rfl rfl rfl
  | other hpg =>
    exact hlock hpg (fun pg hdb hpend => ⟨by rw [hdb]; exact h.1,by rw [hdb,hpend]; exact h.2⟩) rfl rfl rfl
  | before prev => exact .same ht h (.inl rfl) rfl rfl
  | @pointed i c prev pg hpg =>
    obtain ⟨hdb,hpend,_,_⟩ := Pg.statement_spec hpg
    have halone : (DeleteMessage.commit i c).Alone p pg := by
      refine ⟨by rw [hdb]; exact h.1,?_⟩
      rw [hpend,hdb]
      exact h.2.point
    exact .statement ht hpg halone (.inl rfl) rfl rfl
  | @committed i c =>
    obtain ⟨hmsg,hw⟩ := h
    have hm : (w.pg.view p).messages = w.pg.db.messages.map (·.wipeIf (.ofText i)) := hw.messages _
    refine .change (ht.sweep hm hw.changed rfl) (fun r hr => by simp [Pg.commit,hr])
      (Pg.Idle.commit w.pg p).pending rfl rfl fun o _ => ?_
    refine follows_deleted hmsg (fun x => o.sees_wipe hm x) fun x => ?_
    have hrows : (w.pg.view p).reactions =
        w.pg.db.reactions.filter (· ∉ reactionsOf w.pg.db (.ofText i)) := hw.reactions _
    rw [Pg.commit_db,hrows,reactionsOf]
    simp only [List.mem_filter,decide_eq_true_eq,not_and]
    exact and_congr_right fun hx => ⟨fun hn => hn hx,fun hn _ => hn⟩
  | rolledBack => exact .rollback ht (Pg.Idle.rollback w.pg p).pending rfl rfl rfl
  | told => exact .send ht h rfl rfl

theorem Call.progress {q q' : Call} (ht : Tidy w.pg.db) (h : q.Alone p w.pg)
    (hq : q.step hash p ch w = some (q',w')) : Progress p q q' w w' := by
  cases q with
  | add q =>
    obtain ⟨⟨r,v⟩,hr,he⟩ := Option.map_eq_some_iff.mp hq
    obtain ⟨rfl,rfl⟩ := Prod.mk.inj he
    exact AddReaction.progress ht h hr
  | remove q =>
    obtain ⟨⟨r,v⟩,hr,he⟩ := Option.map_eq_some_iff.mp hq
    obtain ⟨rfl,rfl⟩ := Prod.mk.inj he
    exact RemoveReaction.progress ht h hr
  | delete q =>
    obtain ⟨⟨r,v⟩,hr,he⟩ := Option.map_eq_some_iff.mp hq
    obtain ⟨rfl,rfl⟩ := Prod.mk.inj he
    exact DeleteMessage.progress ht h hr

/-! ### Sequential runs -/

/-- Every call has returned. -/
def Quiet (c : Config World Call) : Prop := ∀ q ∈ c.pool, q.finished = true

/-- A call starts when the calls before it have returned. -/
def Sequential (c : Config World Call) : Label Call Choice Empty → Prop
  | .spawn q => q.Starts ∧ Quiet c
  | .run _ _ => True
  | .env _ => True

/-- The same, and the listener does not react. -/
def SequentialBeside (o : Observer) (c : Config World Call) : Label Call Choice Empty → Prop
  | .spawn q => (q.Starts ∧ Quiet c) ∧ q.actor? ≠ some o.userId
  | .run _ _ => True
  | .env _ => True

variable {c c₀ d : Config World Call} {q : Call}

theorem Call.finished_step (hq : q.finished = true) : q.step hash p ch w = none := by
  cases q with
  | add q => cases q <;> simp_all [finished,step,AddReaction.step]
  | remove q => cases q <;> simp_all [finished,step,RemoveReaction.step]
  | delete q => cases q <;> simp_all [finished,step,DeleteMessage.step]

theorem Call.finished_unsent (hq : q.finished = true) : q.unsent = [] := by
  cases q with
  | add q => cases q <;> simp_all [finished,unsent]
  | remove q => cases q <;> simp_all [finished,unsent]
  | delete q => cases q <;> simp_all [finished,unsent]

theorem Call.finished_alone (hq : q.finished = true) : q.Alone p pg ↔ pg.pending p = [] := by
  cases q with
  | add q => cases q <;> simp_all [finished,Alone,AddReaction.Alone]
  | remove q => cases q <;> simp_all [finished,Alone,RemoveReaction.Alone]
  | delete q => cases q <;> simp_all [finished,Alone,DeleteMessage.Alone]

theorem Call.Starts.alone (h : q.Starts) (hp : pg.pending p = []) : q.Alone p pg := by
  cases h <;> exact hp

theorem Call.Starts.unsent (h : q.Starts) : q.unsent = [] := by
  cases h <;> rfl

/-- At most one call is unfinished, and the tables are tidy. -/
structure InLine (c : Config World Call) : Prop where
  tidy : Tidy c.world.pg.db
  alone : ∀ (p : ℕ) (q : Call), c.pool[p]? = some q → q.Alone p c.world.pg
  single : ∀ (p r : ℕ) (q s : Call), c.pool[p]? = some q → c.pool[r]? = some s → r ≠ p → q.finished = false →
    s.finished = true
  idle : ∀ p, c.pool.length ≤ p → c.world.pg.pending p = []

theorem InLine.spawn (h : InLine c) (hq : q.Starts) (hquiet : Quiet c) : InLine ⟨c.world,c.pool++[q]⟩ where
  tidy := h.tidy
  alone p s hs := by
    rcases pool_append hs with ⟨_,hs⟩ | ⟨hp,rfl⟩
    · exact h.alone p s hs
    · exact hq.alone (h.idle p hp)
  single p r s t hs ht hne hunf := by
    rcases pool_append hs with ⟨hlt,hs⟩ | ⟨hp,rfl⟩
    · rw [hquiet s (List.mem_of_getElem? hs)] at hunf
      simp at hunf
    · rcases pool_append ht with ⟨_,ht⟩ | ⟨hr,rfl⟩
      · exact hquiet t (List.mem_of_getElem? ht)
      · have hlt := (List.getElem?_eq_some_iff.mp hs).1
        have hlt' := (List.getElem?_eq_some_iff.mp ht).1
        simp only [List.length_append,List.length_singleton] at hlt hlt'
        omega
  idle p hp := h.idle p (by simp only [List.length_append] at hp; omega)

/-- The other calls have finished when one takes a step. -/
theorem InLine.others (h : InLine c) (hq : c.pool[p]? = some q) {q' : Call}
    (hs : q.step hash p ch c.world = some (q',w')) {r : ℕ} {s : Call} (hne : r ≠ p)
    (hr : c.pool[r]? = some s) : s.finished = true := by
  refine h.single p r q s hq hr hne ?_
  by_contra hfin
  rw [Call.finished_step (by simpa using hfin)] at hs
  simp at hs

theorem InLine.run {q' : Call} (h : InLine c) (hq : c.pool[p]? = some q)
    (hs : q.step hash p ch c.world = some (q',w')) : InLine ⟨w',c.pool.set p q'⟩ := by
  have hprog := Call.progress h.tidy (h.alone p q hq) hs
  have hlt : p < c.pool.length := (List.getElem?_eq_some_iff.mp hq).1
  refine ⟨hprog.tidy,fun r s hr => ?_,fun r t s u hr ht hne hunf => ?_,fun r hr => ?_⟩
  · rcases pool_set hr with ⟨rfl,rfl⟩ | ⟨hne,hr⟩
    · exact hprog.alone
    · have hfin := h.others hq hs hne hr
      refine (Call.finished_alone hfin).mpr ((hprog.others r hne).trans ?_)
      exact (Call.finished_alone hfin).mp (h.alone r s hr)
  · rcases pool_set hr with ⟨rfl,rfl⟩ | ⟨hrp,hr⟩
    · rcases pool_set ht with ⟨rfl,rfl⟩ | ⟨htp,ht⟩
      · exact absurd rfl hne
      · exact h.others hq hs htp ht
    · rw [h.others hq hs hrp hr] at hunf
      simp at hunf
  · simp only [List.length_set] at hr
    exact (hprog.others r (by omega)).trans (h.idle r hr)

/-- What has been sent, and after it what waits. -/
def told (c : Config World Call) : List Emission := c.world.emitted++c.pool.flatMap Call.unsent

theorem flatMap_unsent {pool : List Call} {p : ℕ} (hq : pool[p]? = some q)
    (h : ∀ r s, r ≠ p → pool[r]? = some s → s.unsent = []) : pool.flatMap Call.unsent = q.unsent := by
  induction pool generalizing p with
  | nil => simp at hq
  | cons s pool ih =>
    cases p with
    | zero =>
      obtain rfl : s = q := by simpa using hq
      have hrest : pool.flatMap Call.unsent = [] := by
        refine List.flatMap_eq_nil_iff.mpr fun t ht => ?_
        obtain ⟨r,hr⟩ := List.mem_iff_getElem?.mp ht
        exact h (r+1) t (by omega) (by simpa using hr)
      rw [List.flatMap_cons,hrest,List.append_nil]
    | succ p =>
      have hhead : s.unsent = [] := h 0 s (by omega) rfl
      rw [List.flatMap_cons,hhead,List.nil_append]
      exact ih (by simpa using hq) fun r t hne hr => h (r+1) t (by omega) (by simpa using hr)

/-- A step tells the change it makes. -/
theorem InLine.tells {q' : Call} (h : InLine c) (hq : c.pool[p]? = some q)
    (hs : q.step hash p ch c.world = some (q',w')) :
    ∃ fresh, told ⟨w',c.pool.set p q'⟩ = told c++fresh ∧ ∀ o : Observer, q.actor? ≠ some o.userId →
      Follows (o.table c.world.pg.db) (o.hears fresh) (o.table w'.pg.db) := by
  obtain ⟨fresh,he,hf⟩ := (Call.progress h.tidy (h.alone p q hq) hs).follows
  have hlt : p < c.pool.length := (List.getElem?_eq_some_iff.mp hq).1
  have hbefore : c.pool.flatMap Call.unsent = q.unsent :=
    flatMap_unsent hq fun r s hne hr => Call.finished_unsent (h.others hq hs hne hr)
  have hafter : (c.pool.set p q').flatMap Call.unsent = q'.unsent := by
    refine flatMap_unsent (List.getElem?_set_self hlt) fun r s hne hr => ?_
    rcases pool_set hr with ⟨hrp,_⟩ | ⟨_,hr⟩
    · exact absurd hrp hne
    · exact Call.finished_unsent (h.others hq hs hne hr)
  exact ⟨fresh,by simp only [told,hbefore,hafter]; exact he,hf⟩

theorem InLine.of_run {w₀ : World} (hidle : ∀ p, w₀.pg.Idle p) (hempty : w₀.pg.db.reactions = [])
    (h : Run (system hash) Sequential ⟨w₀,[]⟩ c) : InLine c := by
  have htidy : Tidy w₀.pg.db := ⟨by simp [hempty],by simp [hempty]⟩
  refine h.invariant ⟨htidy,by simp,by simp,fun p _ => (hidle p).pending⟩ ?_
  intro a l b _ ha hl hn
  cases l with
  | spawn q =>
    simp only [System.next,Option.some.injEq] at hn
    subst hn
    exact ha.spawn hl.1 hl.2
  | run p ch =>
    obtain ⟨q,q',w,hq,hs,rfl⟩ := (system hash).next_run hn
    exact ha.run hq hs
  | env e => exact e.elim

/-- What a listener that came at `c₀` has been told leads to the table. -/
structure Watching (o : Observer) (c₀ c : Config World Call) : Prop extends InLine c where
  actors : ∀ q ∈ c.pool, q.actor? ≠ some o.userId
  follows : ∃ es, told c = told c₀++es ∧ Follows (o.table c₀.world.pg.db) (o.hears es) (o.table c.world.pg.db)

theorem Call.finished_actor (hq : q.finished = true) : q.actor? = none := by
  cases q with
  | add q => cases q <;> simp_all [finished,actor?]
  | remove q => cases q <;> simp_all [finished,actor?]
  | delete q => cases q <;> simp_all [finished,actor?]

theorem Watching.of_run {o : Observer} (h₀ : InLine c₀) (hquiet : Quiet c₀)
    (h : Run (system hash) (SequentialBeside o) c₀ c) : Watching o c₀ c := by
  have hactors : ∀ q ∈ c₀.pool, q.actor? ≠ some o.userId := by
    intro q hq
    rw [Call.finished_actor (hquiet q hq)]
    simp
  refine h.invariant ⟨h₀,hactors,[],by simp,.nil _⟩ ?_
  intro a l b _ ha hl hn
  obtain ⟨es,htold,hfollows⟩ := ha.follows
  cases l with
  | spawn q =>
    simp only [System.next,Option.some.injEq] at hn
    subst hn
    refine ⟨ha.toInLine.spawn hl.1.1 hl.1.2,fun s hs => ?_,es,?_,hfollows⟩
    · rcases List.mem_append.mp hs with hs | hs
      · exact ha.actors s hs
      · obtain rfl := List.mem_singleton.mp hs
        exact hl.2
    · rw [← htold]
      simp [told,hl.1.1.unsent]
  | run p ch =>
    obtain ⟨q,q',w,hq,hs,rfl⟩ := (system hash).next_run hn
    have hactor := ha.actors q (List.mem_of_getElem? hq)
    obtain ⟨fresh,htold',hf⟩ := ha.toInLine.tells hq hs
    refine ⟨ha.toInLine.run hq hs,fun s hs' => ?_,es++fresh,?_,?_⟩
    · rcases List.mem_or_eq_of_mem_set hs' with hs' | rfl
      · exact ha.actors s hs'
      · rcases (Call.progress ha.tidy (ha.alone p q hq) hs).actor with he | he
        · rwa [he]
        · simp [he]
    · rw [htold',htold,List.append_assoc]
    · rw [o.hears_append]
      exact hfollows.append (hf o hactor)
  | env e => exact e.elim

def quiet (c : Config World Call) : Bool := c.pool.all Call.finished

/-- bob listens in the room of the channel. -/
def listener : Observer := ⟨2,Uuid.text 3⟩

def beside (c : Config World Call) : Label Call Choice Empty → Bool
  | .spawn q => starting q && quiet c && q.actor? ≠ some listener.userId
  | .run _ _ => true
  | .env _ => true

/-- ada reacts, bob joins, ada changes the reaction, takes it back and reacts again, and bob
deletes the message. -/
def joined : List (Label Call Choice Empty) :=
  .spawn (.add (.load (react ada "+1")))::List.replicate 7 (.run 0 (draws 21))

def rest : List (Label Call Choice Empty) :=
  .spawn (.add (.load (react ada "heart")))::List.replicate 7 (.run 1 (draws 22))++
    .spawn (.remove (.load (react ada "heart")))::List.replicate 4 (.run 2 (draws 0))++
      .spawn (.add (.load (react ada "+1")))::List.replicate 7 (.run 3 (draws 23))++
        .spawn (.delete (.select 2 (Uuid.text 5)))::List.replicate 9 (.run 4 (draws 0))

end ZevraServer.Reactions
