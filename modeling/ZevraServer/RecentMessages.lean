import ZevraServer.Json
import ZevraServer.RedisLists
import ZevraServer.World

/-!
# The message cache on its Redis keys

`cacheMessage`, `getRecentMessages` and `invalidateMessages` of `redis-cache.service.ts`
command by command. After any calls the list of a channel is the end of what was pushed
since the last invalidation; the model of the whole server keeps these lists.
-/

namespace ZevraServer

namespace RecentMessages

open RedisLists

/-- `JSON.stringify` and `JSON.parse` on the messages. -/
structure Codec (α : Type) where
  stringify : α → String
  parse : String → Option α
  parse_stringify : ∀ m, parse (stringify m) = some m

/-- The lists and the expiry of keys; an absent key is an empty list. -/
structure Keyspace where
  lists : String → List String
  ttl : String → Option ℕ

namespace Keyspace

def rPush (σ : Keyspace) (key value : String) : Keyspace :=
  { σ with lists := Function.update σ.lists key (σ.lists key++[value]) }

def lTrim (σ : Keyspace) (key : String) (start stop : ℤ) : Keyspace :=
  { σ with lists := Function.update σ.lists key (RedisLists.lTrim (σ.lists key) start stop) }

def expire (σ : Keyspace) (key : String) (seconds : ℕ) : Keyspace :=
  { σ with ttl := Function.update σ.ttl key (some seconds) }

def lRange (σ : Keyspace) (key : String) (start stop : ℤ) : List String :=
  RedisLists.lRange (σ.lists key) start stop

def del (σ : Keyspace) (key : String) : Keyspace where
  lists := Function.update σ.lists key []
  ttl := Function.update σ.ttl key none

end Keyspace

/-- What `getClient()` returns: nothing, a client whose commands fail, or one that works. -/
inductive Client
  | absent
  | failing
  | ready
  deriving DecidableEq, Repr

/-- `RedisKeys.messageCache`. -/
def messageCache (channelId : String) : String := "zevra:cache:messages:"++channelId

/-- `RedisTtl.messageCacheSeconds`. -/
def messageCacheSeconds : ℕ := 86400

section

variable {α : Type} (J : Codec α)

/-- One `MULTI`. -/
def cacheMessage (client : Client) (channelId : String) (message : α) (σ : Keyspace) : Keyspace :=
  match client with
  | .ready =>
    let key := messageCache channelId
    ((σ.rPush key (J.stringify message)).lTrim key (-MESSAGE_CACHE_SIZE) (-1)).expire key messageCacheSeconds
  | _ => σ

/-- An item that is no JSON makes `map` throw. -/
def getRecentMessages (client : Client) (channelId : String) (limit : ℤ) (σ : Keyspace) : List α :=
  match client with
  | .ready => ((σ.lRange (messageCache channelId) (-limit) (-1)).mapM J.parse).getD []
  | _ => []

def invalidateMessages (client : Client) (channelId : String) (σ : Keyspace) : Keyspace :=
  match client with
  | .ready => σ.del (messageCache channelId)
  | _ => σ

/-- A call that changes the cache. -/
inductive Call (α : Type)
  | cacheMessage (channelId : String) (message : α)
  | invalidateMessages (channelId : String)

def Call.channelId : Call α → String
  | .cacheMessage channelId _ => channelId
  | .invalidateMessages channelId => channelId

def Call.run (client : Client) : Call α → Keyspace → Keyspace
  | .cacheMessage channelId message, σ => RecentMessages.cacheMessage J client channelId message σ
  | .invalidateMessages channelId, σ => RecentMessages.invalidateMessages client channelId σ

def runs (client : Client) (calls : List (Call α)) (σ : Keyspace) : Keyspace :=
  calls.foldl (fun σ call => call.run J client σ) σ

end

/-! ### What was pushed -/

section

variable {α : Type}

def Call.invalidates (channelId : String) : Call α → Bool
  | .cacheMessage _ _ => false
  | .invalidateMessages c => c = channelId

def Call.pushes? (channelId : String) : Call α → Option α
  | .cacheMessage c message => if c = channelId then some message else none
  | .invalidateMessages _ => none

/-- The messages pushed to a channel since its last invalidation. -/
def pushed (channelId : String) (calls : List (Call α)) : List α :=
  (calls.rtakeWhile fun call => !call.invalidates channelId).filterMap (·.pushes? channelId)

variable {J : Codec α} {σ : Keyspace} {c d : String} {calls : List (Call α)} {message : α} {l : List α}

theorem pushed_concat_push (calls : List (Call α)) (c : String) (message : α) :
    pushed c (calls++[.cacheMessage c message]) = pushed c calls++[message] := by
  rw [pushed,List.rtakeWhile_concat_pos _ _ _ rfl,List.filterMap_append]
  simp [pushed,Call.pushes?]

theorem pushed_concat_invalidate (calls : List (Call α)) (c : String) :
    pushed c (calls++[.invalidateMessages c]) = [] := by
  rw [pushed,List.rtakeWhile_concat_neg _ _ _ (by simp [Call.invalidates])]
  rfl

/-- Calls on other channels push nothing. -/
theorem pushed_concat_other {call : Call α} (h : call.channelId ≠ c) (calls : List (Call α)) :
    pushed c (calls++[call]) = pushed c calls := by
  have hinvalidates : call.invalidates c = false := by
    cases call with
    | cacheMessage d message => rfl
    | invalidateMessages d => simpa [Call.invalidates,Call.channelId] using h
  have hpushes : call.pushes? c = none := by
    cases call with
    | cacheMessage d message => exact if_neg h
    | invalidateMessages d => rfl
  rw [pushed,List.rtakeWhile_concat_pos _ _ _ (by simp [hinvalidates]),List.filterMap_append]
  simp [pushed,hpushes]

/-! ### The keys -/

theorem messageCache_inj (h : messageCache c = messageCache d) : c = d :=
  (String.append_right_inj _).mp h

theorem lists_cacheMessage (c : String) (message : α) (σ : Keyspace) :
    (cacheMessage J .ready c message σ).lists (messageCache c) =
      (σ.lists (messageCache c)++[J.stringify message]).rtake MESSAGE_CACHE_SIZE := by
  have htrim := lTrim_last (by decide : 1 ≤ (MESSAGE_CACHE_SIZE : ℤ))
    (σ.lists (messageCache c)++[J.stringify message])
  simpa [cacheMessage,Keyspace.rPush,Keyspace.lTrim,Keyspace.expire] using htrim

theorem lists_invalidateMessages (c : String) (σ : Keyspace) :
    (invalidateMessages .ready c σ).lists (messageCache c) = [] := by
  simp [invalidateMessages,Keyspace.del]

/-- A call on another channel leaves the list and its expiry alone. -/
theorem run_other {call : Call α} (h : call.channelId ≠ c) (client : Client) (σ : Keyspace) :
    (call.run J client σ).lists (messageCache c) = σ.lists (messageCache c) ∧
      (call.run J client σ).ttl (messageCache c) = σ.ttl (messageCache c) := by
  have hkey : messageCache c ≠ messageCache call.channelId := fun he => h (messageCache_inj he).symm
  cases client with
  | absent => cases call <;> exact ⟨rfl,rfl⟩
  | failing => cases call <;> exact ⟨rfl,rfl⟩
  | ready =>
    cases call with
    | cacheMessage d message =>
      rw [Call.channelId] at hkey
      simp [Call.run,cacheMessage,Keyspace.rPush,Keyspace.lTrim,Keyspace.expire,Function.update_of_ne hkey]
    | invalidateMessages d =>
      rw [Call.channelId] at hkey
      simp [Call.run,invalidateMessages,Keyspace.del,Function.update_of_ne hkey]

/-- The list of a channel is the end of what was pushed. -/
def Holds (J : Codec α) (c : String) (σ : Keyspace) (l : List α) : Prop :=
  σ.lists (messageCache c) = (l.map J.stringify).rtake MESSAGE_CACHE_SIZE

theorem Holds.run (h : Holds J c σ (pushed c calls)) (call : Call α) :
    Holds J c (call.run J .ready σ) (pushed c (calls++[call])) := by
  by_cases hc : call.channelId = c
  · subst hc
    cases call with
    | cacheMessage c message =>
      rw [Call.channelId] at h ⊢
      rw [Holds,pushed_concat_push,Call.run,lists_cacheMessage,h,rtake_append_rtake,List.map_append,
        List.map_singleton]
    | invalidateMessages c =>
      rw [Call.channelId,Holds,pushed_concat_invalidate,Call.run,lists_invalidateMessages]
      rfl
  · rw [Holds,pushed_concat_other hc,(run_other hc .ready σ).1]
    exact h

theorem Holds.runs (h : σ.lists (messageCache c) = []) (calls : List (Call α)) :
    Holds J c (runs J .ready calls σ) (pushed c calls) := by
  induction calls using List.reverseRecOn with
  | nil =>
    rw [Holds,RecentMessages.runs,List.foldl_nil,h]
    rfl
  | append_singleton calls call ih =>
    rw [RecentMessages.runs,List.foldl_append]
    exact ih.run call

theorem mapM_parse (J : Codec α) (l : List α) : (l.map J.stringify).mapM J.parse = some l := by
  induction l with
  | nil => rfl
  | cons m l ih => simp [List.mapM_cons,J.parse_stringify,ih]

/-- What is read from a list that holds the end of what was pushed. -/
theorem Holds.getRecentMessages (h : Holds J c σ l) {limit : ℤ} (hlimit : 1 ≤ limit) :
    getRecentMessages J .ready c limit σ = l.rtake (min limit.toNat MESSAGE_CACHE_SIZE) := by
  have hrange : σ.lRange (messageCache c) (-limit) (-1) =
      (l.rtake (min limit.toNat MESSAGE_CACHE_SIZE)).map J.stringify := by
    rw [Keyspace.lRange,lRange_last hlimit,h,rtake_rtake,map_rtake]
  simp only [RecentMessages.getRecentMessages,hrange,mapM_parse,Option.getD_some]

/-- The cache returns the last messages that were pushed since the last invalidation, in
the order of the pushes. -/
theorem getRecentMessages_pushed (J : Codec α) (c : String) (σ : Keyspace)
    (hσ : σ.lists (messageCache c) = []) (calls : List (Call α)) (limit : ℤ) (hlimit : 1 ≤ limit) :
    getRecentMessages J .ready c limit (runs J .ready calls σ) =
      (pushed c calls).rtake (min limit.toNat (min MESSAGE_CACHE_SIZE (pushed c calls).length)) := by
  rw [(Holds.runs hσ calls).getRecentMessages hlimit,← min_assoc,rtake_min_length]

end

/-- Objects with texts and nulls as fields. -/
def objects : Codec (List (List Char × Option (List Char))) where
  stringify m := String.ofList (Json.stringify m)
  parse s := Json.parse s.toList
  parse_stringify m := by rw [String.toList_ofList,Json.parse_stringify]

theorem getRecentMessages_pushed_ids :
    getRecentMessages objects .ready "ch1" 2 (runs objects .ready
      [.cacheMessage "ch1" [("id".toList,some "1".toList)],.invalidateMessages "ch1",
        .cacheMessage "ch1" [("id".toList,some "2".toList)],
        .cacheMessage "ch2" [("id".toList,some "3".toList)],
        .cacheMessage "ch1" [("id".toList,some "4".toList)],
        .cacheMessage "ch1" [("id".toList,some "5".toList)]] ⟨fun _ => [],fun _ => none⟩) =
      [[("id".toList,some "4".toList)],[("id".toList,some "5".toList)]] := by
  rw [getRecentMessages_pushed objects "ch1" ⟨fun _ => [],fun _ => none⟩ rfl _ 2 (by decide)]
  decide

/-! ### Expiry -/

section

variable {α : Type} {J : Codec α} {client : Client} {σ : Keyspace}

/-- Every list of messages expires. -/
def Expires (σ : Keyspace) : Prop :=
  ∀ c, σ.lists (messageCache c) ≠ [] → σ.ttl (messageCache c) = some messageCacheSeconds

theorem Expires.run (h : Expires σ) (call : Call α) : Expires (call.run J client σ) := by
  intro c hne
  by_cases hc : call.channelId = c
  · subst hc
    cases client with
    | absent => cases call <;> exact h _ hne
    | failing => cases call <;> exact h _ hne
    | ready =>
      cases call with
      | cacheMessage c message => simp [Call.run,Call.channelId,cacheMessage,Keyspace.expire]
      | invalidateMessages c => exact absurd (lists_invalidateMessages c σ) hne
  · obtain ⟨hlists,httl⟩ := run_other (J:=J) hc client σ
    rw [hlists] at hne
    rw [httl]
    exact h c hne

theorem Expires.runs (h : Expires σ) (calls : List (Call α)) : Expires (runs J client calls σ) := by
  induction calls using List.reverseRecOn with
  | nil => exact h
  | append_singleton calls call ih =>
    rw [RecentMessages.runs,List.foldl_append]
    exact ih.run call

end

/-! ### The lists of the server's model -/

section

variable {J : Codec CacheItem} {name : Uuid → String} {σ : Keyspace} {r : Redis}

/-- The keys hold the texts of the items. -/
def Stores (J : Codec CacheItem) (name : Uuid → String) (σ : Keyspace) (r : Redis) : Prop :=
  ∀ c, σ.lists (messageCache (name c)) = (r.messageCache c).map J.stringify

theorem Stores.cacheMessage (hname : Function.Injective name) (h : Stores J name σ r) (c : Uuid)
    (m : MessagePayload) :
    Stores J name (cacheMessage J .ready (name c) (.payload m) σ) (r.cacheMessage c m) := by
  intro d
  by_cases hd : d = c
  · subst hd
    have hlast : (r.cacheMessage d m).messageCache d =
        (r.messageCache d++[CacheItem.payload m]).rtake MESSAGE_CACHE_SIZE := Function.update_self _ _ _
    rw [lists_cacheMessage,h,hlast,map_rtake,List.map_append,List.map_singleton]
  · have hne : (Call.cacheMessage (name c) (CacheItem.payload m)).channelId ≠ name d :=
      fun he => hd (hname he).symm
    have hother : (r.cacheMessage c m).messageCache d = r.messageCache d := Function.update_of_ne hd _ _
    rw [hother,← h]
    exact (run_other hne .ready σ).1

theorem Stores.invalidateMessages (hname : Function.Injective name) (h : Stores J name σ r) (c : Uuid) :
    Stores J name (invalidateMessages .ready (name c) σ) (r.invalidateMessages c) := by
  intro d
  by_cases hd : d = c
  · subst hd
    have hnone : (r.invalidateMessages d).messageCache d = [] := Function.update_self _ _ _
    rw [lists_invalidateMessages,hnone,List.map_nil]
  · have hne : (Call.invalidateMessages (name c) : Call CacheItem).channelId ≠ name d :=
      fun he => hd (hname he).symm
    have hother : (r.invalidateMessages c).messageCache d = r.messageCache d := Function.update_of_ne hd _ _
    rw [hother,← h]
    exact (run_other (J:=J) hne .ready σ).1

/-- Both levels read the same messages. -/
theorem Stores.getRecentMessages (h : Stores J name σ r) (c : Uuid) {limit : ℤ} (hlimit : 1 ≤ limit) :
    getRecentMessages J .ready (name c) limit σ = r.getRecentMessages c limit.toNat := by
  have hrange : σ.lRange (messageCache (name c)) (-limit) (-1) =
      (r.getRecentMessages c limit.toNat).map J.stringify := by
    rw [Keyspace.lRange,lRange_last hlimit,h,← map_rtake]
    rfl
  simp only [RecentMessages.getRecentMessages,hrange,mapM_parse,Option.getD_some]

end

end RecentMessages

end ZevraServer
