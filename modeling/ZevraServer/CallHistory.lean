import ZevraServer.Webhooks

/-!
# The history of LiveKit calls

Initiations and webhooks handled one at a time, at increasing readings of the clock. A leave is
written into the newest log of its room. It reaches the row of the join exactly if no log of
the room has been created since.

Of an initiation only the insert of `createCallLog` touches these tables.
-/

namespace ZevraServer

namespace LiveKit

open Raw.State (getGroupRoomName)
open Calls (SocketUser)

/-! ### Moments -/

/-- `initiateLiveKitGroupCall` and `handleLiveKitFallback` create a log; the rest are webhooks. -/
inductive Happening
  | groupCall (userId channelId : RawId)
  | fallback (userId targetId : RawId) (channelId : Option RawId)
  | webhook (h : Webhook)
  deriving DecidableEq, Repr

structure Moment where
  setting : Setting
  ids : Ids
  what : Happening
  deriving DecidableEq, Repr

namespace Moment

/-- The moment is a join of the user in the room. -/
def Joins (m : Moment) (room : String) (u : Uuid) : Prop :=
  ∃ identity name, m.what = .webhook ⟨.participantJoined,room,identity,name⟩ ∧ isUuid identity = true ∧
    Uuid.ofText identity = u

def Leaves (m : Moment) (room : String) (u : Uuid) : Prop :=
  ∃ identity name, m.what = .webhook ⟨.participantLeft,room,identity,name⟩ ∧ isUuid identity = true ∧
    Uuid.ofText identity = u

end Moment

namespace World

variable (w : World)

/-- The log an initiation creates; `none` if its insert throws. -/
def initiate (m : Moment) : Option World :=
  match m.what with
  | .groupCall u c => w.createCallLog m.setting m.ids .livekit u none (some (getGroupRoomName c)) (some c)
  | .fallback u t c => w.createCallLog m.setting m.ids .livekit u (some t) (some (getDmRoomName u t)) c
  | .webhook _ => none

def next (m : Moment) : World :=
  match m.what with
  | .webhook h => w.handleWebhook m.setting m.ids h
  | _ => (w.initiate m).getD w

def after (ms : List Moment) : World := ms.foldl World.next w

/-- The room for which the moment creates a log, if it does. -/
def opens? (m : Moment) : Option String :=
  match m.what with
  | .groupCall _ c => if (w.initiate m).isSome then some (getGroupRoomName c) else none
  | .fallback u t _ => if (w.initiate m).isSome then some (getDmRoomName u t) else none
  | .webhook h =>
    if (h.event = .roomStarted ∨ h.event = .roomFinished) ∧ h.roomName ≠ "" ∧ storable 128 h.roomName = true ∧
      w.openLogs h.roomName = [] then some h.roomName else none

/-- No log of the room is created in these moments. -/
def Undisturbed (room : String) : World → List Moment → Prop
  | _, [] => True
  | w, m::ms => w.opens? m ≠ some room ∧ Undisturbed room (w.next m) ms

/-- The clock increases from `t`, and the drawn ids are new. -/
def Admits : World → ℕ → List Moment → Prop
  | _, _, [] => True
  | w, t, m::ms => t < m.setting.now ∧ w.Fresh m.ids ∧ Admits (w.next m) m.setting.now ms

/-- The newest log of the room. -/
def IsLatest (room : String) (id : Uuid) : Prop :=
  ∃ l ∈ w.callLogs, l.id = id ∧ l.roomName = some room ∧
    ∀ k ∈ w.callLogs, k.roomName = some room → k.startedAt ≤ l.startedAt

end World

/-- Logs that were written before `t`; no two logs of a room have begun at once. -/
structure LogsPast (ls : List CallLog) (t : ℕ) : Prop where
  ids : ∀ l ∈ ls, ∀ k ∈ ls, l.id = k.id → l = k
  distinct : ∀ l ∈ ls, ∀ k ∈ ls, ∀ r, l.roomName = some r → k.roomName = some r →
    l.startedAt = k.startedAt → l = k
  started : ∀ l ∈ ls, l.startedAt ≤ t

/-- Rows of participants that were written before `t`. -/
structure RowsPast (ls : List CallLog) (ps : List Participant) (t : ℕ) : Prop where
  ids : ∀ p ∈ ps, ∀ q ∈ ps, p.id = q.id → p = q
  pairs : ∀ p ∈ ps, ∀ q ∈ ps, p.callLogId = q.callLogId → p.userId = q.userId → p = q
  refs : ∀ p ∈ ps, ∃ l ∈ ls, l.id = p.callLogId
  joined : ∀ p ∈ ps, p.joinedAt ≤ t
  left : ∀ p ∈ ps, ∀ s, p.leftAt = some s → s ≤ t

structure World.Past (w : World) (t : ℕ) : Prop where
  logs : LogsPast w.callLogs t
  rows : RowsPast w.callLogs w.participants t

/-! ### Requests and moments -/

section

variable {w w' : World} {p : ℕ} {ch : Choice}

/-- The tables of the calls stay, or the log of an initiation is inserted. -/
def Initiates (ch : Choice) (w w' : World) : Prop :=
  w'.callLogs = w.callLogs ∧ w'.participants = w.participants ∨ ∃ i, w.initiate ⟨ch.setting,ch.ids,i⟩ = some w'

theorem Enter.initiates {q q' : Enter} (hs : q.step p ch w = some (q',w')) : Initiates ch w w' := by
  cases q with
  | generate d user r =>
    have hkept : w'.callLogs = w.callLogs ∧ w'.participants = w.participants := by
      grind [Enter.step,World.mint]
    exact .inl hkept
  | _ => exact .inl (by grind [Enter.step])

theorem Group.initiates {q q' : Group} (hs : q.step p ch w = some (q',w')) : Initiates ch w w' := by
  cases q with
  | log user ts c =>
    have hlog : w' = w ∨ w.createCallLog ch.setting ch.ids .livekit user.id none (some (getGroupRoomName c))
        (some c) = some w' := by
      grind [Group.step]
    rcases hlog with rfl | hlog
    · exact .inl ⟨rfl,rfl⟩
    · exact .inr ⟨.groupCall user.id c,hlog⟩
  | active user ts c =>
    have hsame : w' = w := by
      cases c <;> grind [Group.step]
    exact .inl ⟨by rw [hsame],by rw [hsame]⟩
  | invite user c found ts reply =>
    have hsame : w' = w := by
      cases ts <;> grind [Group.step]
    exact .inl ⟨by rw [hsame],by rw [hsame]⟩
  | _ => exact .inl (by grind [Group.step,World.mint,World.emit])

theorem Fallback.initiates {q q' : Fallback} (hs : q.step p ch w = some (q',w')) : Initiates ch w w' := by
  cases q with
  | log user t c =>
    have hlog : w' = w ∨ w.createCallLog ch.setting ch.ids .livekit user.id (some t)
        (some (getDmRoomName user.id t)) c = some w' := by
      grind [Fallback.step]
    rcases hlog with rfl | hlog
    · exact .inl ⟨rfl,rfl⟩
    · exact .inr ⟨.fallback user.id t c,hlog⟩
  | _ => exact .inl (by grind [Fallback.step,World.mint,World.emit])

/-- A step of a request is no moment, or the moment of its initiation. -/
theorem Request.initiates {q q' : Request} (hs : q.step p ch w = some (q',w')) : Initiates ch w w' := by
  cases q with
  | enter q =>
    obtain ⟨r,hr,he⟩ := Option.map_eq_some_iff.mp hs
    exact Enter.initiates (hr.trans (by rw [← (Prod.mk.inj he).2]))
  | group q =>
    obtain ⟨r,hr,he⟩ := Option.map_eq_some_iff.mp hs
    exact Group.initiates (hr.trans (by rw [← (Prod.mk.inj he).2]))
  | fallback q =>
    obtain ⟨r,hr,he⟩ := Option.map_eq_some_iff.mp hs
    exact Fallback.initiates (hr.trans (by rw [← (Prod.mk.inj he).2]))

end

/-! ### What a moment changes -/

/-- Logs are closed, or one log is added. -/
inductive LogChange (w : World) (m : Moment) (ls : List CallLog) : Prop
  | kept (f : CallLog → CallLog) : w.opens? m = none →
      (∀ l, (f l).id = l.id ∧ (f l).roomName = l.roomName ∧ (f l).startedAt = l.startedAt) →
      ls = w.callLogs.map f → LogChange w m ls
  | opened (l : CallLog) : w.opens? m = l.roomName → l.roomName.isSome = true → l.id = m.ids.log →
      l.startedAt = m.setting.now → ls = w.callLogs++[l] → LogChange w m ls

/-- Rows of participants are reset by a join, added by a join or closed by a leave. -/
inductive RowChange (w : World) (m : Moment) (ps : List Participant) : Prop
  | kept : ps = w.participants → RowChange w m ps
  | reset (room : String) (u logId : Uuid) : m.Joins room u → w.latestLogId m.setting room = some logId →
      ps = w.participants.map (fun p =>
        if p.callLogId = logId ∧ p.userId = u then World.rejoin m.setting p else p) → RowChange w m ps
  | added (room : String) (u logId : Uuid) (name : String) : m.Joins room u →
      w.latestLogId m.setting room = some logId → w.participant? logId u = none →
      ps = w.participants++[⟨m.ids.participant,logId,u,name,m.setting.now,none,none⟩] → RowChange w m ps
  | closed (room : String) (u logId : Uuid) (q : Participant) : m.Leaves room u →
      w.latestLogId m.setting room = some logId → w.participant? logId u = some q →
      ps = w.participants.map (fun p => if p.id = q.id then World.leave m.setting q.joinedAt p else p) →
      RowChange w m ps

section

variable {w : World} {m : Moment} {t : ℕ} {room : String} {u a b : Uuid}

theorem LogChange.same (h : w.opens? m = none) : LogChange w m w.callLogs :=
  .kept id h (fun _ => ⟨rfl,rfl,rfl⟩) (by simp)

theorem log_initiated {type : Raw.CallType} {x : RawId} {y : Option RawId} {r : String} {z : Option RawId}
    (hn : w.next m = (w.initiate m).getD w) (ho : w.opens? m = if (w.initiate m).isSome then some r else none)
    (hi : w.initiate m = w.createCallLog m.setting m.ids type x y (some r) z) :
    LogChange w m (w.next m).callLogs := by
  rw [hn]
  cases hv : w.initiate m with
  | none => exact .same (by simp [ho,hv])
  | some v =>
    have hopen : w.opens? m = some r := by simp [ho,hv]
    rw [hv] at hi
    unfold World.createCallLog at hi
    split at hi
    · obtain rfl := Option.some.inj hi
      exact .opened _ hopen rfl rfl rfl rfl
    · simp at hi

theorem log_inserted {l : CallLog} {r : String} (hw : w.Fresh m.ids) (hr : l.roomName = some r)
    (hid : l.id = m.ids.log) (hstart : l.startedAt = m.setting.now) (hs : storable 128 r = true)
    (ho : w.opens? m = some r) : LogChange w m (w.insertRoomLog m.ids l).callLogs := by
  rw [insertRoomLog_of hw.log hr hs]
  exact .opened l (ho.trans hr.symm) (by simp [hr]) hid hstart rfl

theorem callLogs_joined {e : Setting} {i : Ids} {r identity name : String} :
    (w.handleParticipantJoined e i r identity name).callLogs = w.callLogs := by
  unfold World.handleParticipantJoined
  split
  · rfl
  · split
    · rfl
    · split
      · rfl
      · unfold World.insertParticipant
        split <;> rfl

theorem callLogs_left {e : Setting} {r identity : String} :
    (w.handleParticipantLeft e r identity).callLogs = w.callLogs := by
  unfold World.handleParticipantLeft
  split
  · rfl
  · split
    · rfl
    · split <;> rfl

theorem logs_roomStarted {h : Webhook} (hw : w.Fresh m.ids) (hm : m.what = .webhook h) (he : h.event = .roomStarted)
    (hr : h.roomName ≠ "") : LogChange w m (w.handleRoomStarted m.setting m.ids h.roomName).callLogs := by
  by_cases hopen : w.openLogs h.roomName = []
  · rw [World.handleRoomStarted,if_pos hopen]
    cases hs : storable 128 h.roomName with
    | true => exact log_inserted hw rfl rfl rfl hs (by simp [World.opens?,hm,he,hr,hs,hopen])
    | false =>
      rw [insertRoomLog_of_not rfl hs]
      exact .same (by simp [World.opens?,hm,hs])
  · rw [World.handleRoomStarted,if_neg hopen]
    exact .same (by simp [World.opens?,hm,hopen])

theorem logs_roomFinished {h : Webhook} (hw : w.Fresh m.ids) (hm : m.what = .webhook h) (he : h.event = .roomFinished)
    (hr : h.roomName ≠ "") : LogChange w m (w.handleRoomFinished m.setting m.ids h.roomName).callLogs := by
  by_cases hopen : w.openLogs h.roomName = []
  · rw [World.handleRoomFinished,if_pos hopen]
    cases hs : storable 128 h.roomName with
    | true => exact log_inserted hw rfl rfl rfl hs (by simp [World.opens?,hm,he,hr,hs,hopen])
    | false =>
      rw [insertRoomLog_of_not rfl hs]
      exact .same (by simp [World.opens?,hm,hs])
  · rw [World.handleRoomFinished,if_neg hopen]
    refine .kept _ (by simp [World.opens?,hm,hopen]) (fun l => ?_) rfl
    split <;> exact ⟨rfl,rfl,rfl⟩

theorem logs_change (hw : w.Fresh m.ids) : LogChange w m (w.next m).callLogs := by
  cases hm : m.what with
  | groupCall x c =>
    have hi : w.initiate m = w.createCallLog m.setting m.ids .livekit x none (some (getGroupRoomName c))
        (some c) := by simp only [World.initiate,hm]
    exact log_initiated (by simp [World.next,hm]) (by simp only [World.opens?,hm]) hi
  | fallback x y c =>
    have hi : w.initiate m = w.createCallLog m.setting m.ids .livekit x (some y) (some (getDmRoomName x y))
        c := by simp only [World.initiate,hm]
    exact log_initiated (by simp [World.next,hm]) (by simp only [World.opens?,hm]) hi
  | webhook h =>
    have hnext : w.next m = w.handleWebhook m.setting m.ids h := by simp [World.next,hm]
    rw [hnext,World.handleWebhook]
    cases he : h.event with
    | roomStarted =>
      dsimp only
      split
      · rename_i hr
        exact .same (by simp [World.opens?,hm,hr])
      · rename_i hr
        exact logs_roomStarted hw hm he hr
    | roomFinished =>
      dsimp only
      split
      · rename_i hr
        exact .same (by simp [World.opens?,hm,hr])
      · rename_i hr
        exact logs_roomFinished hw hm he hr
    | participantJoined =>
      have hnone : w.opens? m = none := by simp [World.opens?,hm,he]
      dsimp only
      split
      · exact .same hnone
      · rw [callLogs_joined]
        exact .same hnone
    | participantLeft =>
      have hnone : w.opens? m = none := by simp [World.opens?,hm,he]
      dsimp only
      split
      · exact .same hnone
      · rw [callLogs_left]
        exact .same hnone
    | other => exact .same (by simp [World.opens?,hm,he])

theorem rows_joined {r identity name : String} (hm : m.what = .webhook ⟨.participantJoined,r,identity,name⟩)
    (name' : String) : RowChange w m (w.handleParticipantJoined m.setting m.ids r identity name').participants := by
  unfold World.handleParticipantJoined
  split
  · exact .kept rfl
  · rename_i hid
    have hjoin : m.Joins r (.ofText identity) := ⟨identity,name,hm,by simpa using hid,rfl⟩
    split
    · exact .kept rfl
    · rename_i logId hlog
      split
      · exact .reset r _ logId hjoin hlog rfl
      · rename_i hrow
        unfold World.insertParticipant
        split
        · exact .added r _ logId _ hjoin hlog hrow rfl
        · exact .kept rfl

theorem rows_left {r identity name : String} (hm : m.what = .webhook ⟨.participantLeft,r,identity,name⟩) :
    RowChange w m (w.handleParticipantLeft m.setting r identity).participants := by
  unfold World.handleParticipantLeft
  split
  · exact .kept rfl
  · rename_i hid
    have hleave : m.Leaves r (.ofText identity) := ⟨identity,name,hm,by simpa using hid,rfl⟩
    split
    · exact .kept rfl
    · rename_i logId hlog
      split
      · exact .kept rfl
      · rename_i q hq
        exact .closed r _ logId q hleave hlog hq rfl

theorem participants_createCallLog {v : World} {e : Setting} {i : Ids} {type : Raw.CallType} {x : RawId}
    {y : Option RawId} {r : Option String} {z : Option RawId} (h : w.createCallLog e i type x y r z = some v) :
    v.participants = w.participants := by
  unfold World.createCallLog at h
  split at h
  · obtain rfl := Option.some.inj h
    rfl
  · simp at h

theorem participants_initiate : ((w.initiate m).getD w).participants = w.participants := by
  unfold World.initiate
  split
  · cases hi : w.createCallLog m.setting m.ids .livekit _ none _ _ with
    | none => rfl
    | some v => exact participants_createCallLog hi
  · cases hi : w.createCallLog m.setting m.ids .livekit _ (some _) _ _ with
    | none => rfl
    | some v => exact participants_createCallLog hi
  · rfl

theorem participants_insertRoomLog {l : CallLog} {i : Ids} : (w.insertRoomLog i l).participants = w.participants := by
  unfold World.insertRoomLog
  split <;> rfl

theorem rows_change : RowChange w m (w.next m).participants := by
  cases hm : m.what with
  | groupCall x c =>
    have hnext : w.next m = (w.initiate m).getD w := by simp [World.next,hm]
    rw [hnext]
    exact .kept participants_initiate
  | fallback x y c =>
    have hnext : w.next m = (w.initiate m).getD w := by simp [World.next,hm]
    rw [hnext]
    exact .kept participants_initiate
  | webhook h =>
    have hnext : w.next m = w.handleWebhook m.setting m.ids h := by simp [World.next,hm]
    obtain ⟨event,r,identity,name⟩ := h
    rw [hnext,World.handleWebhook]
    cases event with
    | roomStarted =>
      refine .kept ?_
      dsimp only
      unfold World.handleRoomStarted
      split_ifs <;> simp [participants_insertRoomLog]
    | roomFinished =>
      refine .kept ?_
      dsimp only
      unfold World.handleRoomFinished
      split_ifs <;> simp [participants_insertRoomLog]
    | participantJoined =>
      dsimp only
      split
      · exact .kept rfl
      · exact rows_joined hm _
    | participantLeft =>
      dsimp only
      split
      · exact .kept rfl
      · exact rows_left hm
    | other => exact .kept rfl

/-! ### Past tables -/

theorem LogChange.past {ls : List CallLog} (hc : LogChange w m ls) (hw : LogsPast w.callLogs t)
    (ht : t < m.setting.now) (hf : w.Fresh m.ids) : LogsPast ls m.setting.now := by
  cases hc with
  | kept f _ hkeys hls =>
    subst hls
    refine ⟨fun l hl k hk he => ?_,fun l hl k hk r hlr hkr he => ?_,fun l hl => ?_⟩
    · obtain ⟨l',hl',rfl⟩ := List.mem_map.mp hl
      obtain ⟨k',hk',rfl⟩ := List.mem_map.mp hk
      rw [(hkeys l').1,(hkeys k').1] at he
      rw [hw.ids l' hl' k' hk' he]
    · obtain ⟨l',hl',rfl⟩ := List.mem_map.mp hl
      obtain ⟨k',hk',rfl⟩ := List.mem_map.mp hk
      rw [(hkeys l').2.1] at hlr
      rw [(hkeys k').2.1] at hkr
      rw [(hkeys l').2.2,(hkeys k').2.2] at he
      rw [hw.distinct l' hl' k' hk' r hlr hkr he]
    · obtain ⟨l',hl',rfl⟩ := List.mem_map.mp hl
      rw [(hkeys l').2.2]
      exact (hw.started l' hl').trans ht.le
  | opened n _ _ hid hstart hls =>
    subst hls
    have hold : ∀ l ∈ w.callLogs, l.id ≠ n.id ∧ l.startedAt ≠ n.startedAt := by
      intro l hl
      have hle := hw.started l hl
      exact ⟨hid ▸ hf.log l hl,by omega⟩
    refine ⟨fun l hl k hk he => ?_,fun l hl k hk r hlr hkr he => ?_,fun l hl => ?_⟩
    · rcases List.mem_append.mp hl with hl' | hl' <;> rcases List.mem_append.mp hk with hk' | hk'
      · exact hw.ids l hl' k hk' he
      · obtain rfl := List.mem_singleton.mp hk'
        exact absurd he (hold l hl').1
      · obtain rfl := List.mem_singleton.mp hl'
        exact absurd he.symm (hold k hk').1
      · rw [List.mem_singleton.mp hl',List.mem_singleton.mp hk']
    · rcases List.mem_append.mp hl with hl' | hl' <;> rcases List.mem_append.mp hk with hk' | hk'
      · exact hw.distinct l hl' k hk' r hlr hkr he
      · obtain rfl := List.mem_singleton.mp hk'
        exact absurd he (hold l hl').2
      · obtain rfl := List.mem_singleton.mp hl'
        exact absurd he.symm (hold k hk').2
      · rw [List.mem_singleton.mp hl',List.mem_singleton.mp hk']
    · rcases List.mem_append.mp hl with hl | hl
      · exact (hw.started l hl).trans ht.le
      · obtain rfl := List.mem_singleton.mp hl
        exact hstart.le

/-- No log is deleted. -/
theorem LogChange.ids {ls : List CallLog} (hc : LogChange w m ls) : ∀ l ∈ w.callLogs, ∃ k ∈ ls, k.id = l.id := by
  intro l hl
  cases hc with
  | kept f _ hkeys hls => exact ⟨f l,hls ▸ List.mem_map_of_mem hl,(hkeys l).1⟩
  | opened n _ _ _ _ hls => exact ⟨l,hls ▸ List.mem_append_left _ hl,rfl⟩

/-- An update that keeps the keys of the rows. -/
theorem RowsPast.update {ls ls' : List CallLog} {ps : List Participant} {f : Participant → Participant} {n : ℕ}
    (h : RowsPast ls ps t) (hids : ∀ l ∈ ls, ∃ k ∈ ls', k.id = l.id)
    (hkeys : ∀ p, (f p).id = p.id ∧ (f p).callLogId = p.callLogId ∧ (f p).userId = p.userId)
    (hjoined : ∀ p ∈ ps, (f p).joinedAt ≤ n) (hleft : ∀ p ∈ ps, ∀ s, (f p).leftAt = some s → s ≤ n) :
    RowsPast ls' (ps.map f) n := by
  refine ⟨fun p hp q hq he => ?_,fun p hp q hq hl hu => ?_,fun p hp => ?_,fun p hp => ?_,fun p hp => ?_⟩
  · obtain ⟨p',hp',rfl⟩ := List.mem_map.mp hp
    obtain ⟨q',hq',rfl⟩ := List.mem_map.mp hq
    rw [(hkeys p').1,(hkeys q').1] at he
    rw [h.ids p' hp' q' hq' he]
  · obtain ⟨p',hp',rfl⟩ := List.mem_map.mp hp
    obtain ⟨q',hq',rfl⟩ := List.mem_map.mp hq
    rw [(hkeys p').2.1,(hkeys q').2.1] at hl
    rw [(hkeys p').2.2,(hkeys q').2.2] at hu
    rw [h.pairs p' hp' q' hq' hl hu]
  · obtain ⟨p',hp',rfl⟩ := List.mem_map.mp hp
    obtain ⟨l,hl,he⟩ := h.refs p' hp'
    obtain ⟨k,hk,hke⟩ := hids l hl
    exact ⟨k,hk,by rw [hke,he,(hkeys p').2.1]⟩
  · obtain ⟨p',hp',rfl⟩ := List.mem_map.mp hp
    exact hjoined p' hp'
  · obtain ⟨p',hp',rfl⟩ := List.mem_map.mp hp
    exact hleft p' hp'

theorem latest_mem {e : Setting} (h : w.latestLogId e room = some a) : w.IsLatest room a := by
  obtain ⟨l,hl,rfl⟩ := Option.map_eq_some_iff.mp h
  obtain ⟨hroom,hnewest⟩ := List.mem_filter.mp (List.mem_of_getElem? hl)
  obtain ⟨hmem,hroom⟩ := List.mem_filter.mp hroom
  exact ⟨l,hmem,rfl,by simpa using hroom,by simpa using hnewest⟩

theorem RowChange.past {ls : List CallLog} {ps : List Participant} (hc : RowChange w m ps)
    (hw : w.Past t) (ht : t < m.setting.now) (hf : w.Fresh m.ids) (hids : ∀ l ∈ w.callLogs, ∃ k ∈ ls, k.id = l.id) :
    RowsPast ls ps m.setting.now := by
  have hjoined : ∀ p ∈ w.participants, p.joinedAt ≤ m.setting.now := fun p hp => (hw.rows.joined p hp).trans ht.le
  have hleft : ∀ p ∈ w.participants, ∀ s, p.leftAt = some s → s ≤ m.setting.now :=
    fun p hp s hs => (hw.rows.left p hp s hs).trans ht.le
  have hkept : RowsPast ls w.participants m.setting.now := by
    simpa using hw.rows.update (f := id) hids (fun _ => ⟨rfl,rfl,rfl⟩) hjoined hleft
  cases hc with
  | kept hps =>
    rw [hps]
    exact hkept
  | reset r u logId _ _ hps =>
    rw [hps]
    refine hw.rows.update hids (fun p => ?_) (fun p hp => ?_) (fun p hp s hs => ?_)
    · split <;> exact ⟨rfl,rfl,rfl⟩
    · split
      · exact le_refl _
      · exact hjoined p hp
    · split at hs
      · simp [World.rejoin] at hs
      · exact hleft p hp s hs
  | added r u logId name _ hlog hrow hps =>
    subst hps
    have hnew : ∀ p ∈ w.participants, p.id ≠ m.ids.participant ∧ ¬(p.callLogId = logId ∧ p.userId = u) :=
      fun p hp => ⟨hf.participant p hp,participant?_none hrow p hp⟩
    refine ⟨fun p hp q hq he => ?_,fun p hp q hq hl hu => ?_,fun p hp => ?_,fun p hp => ?_,fun p hp s hs => ?_⟩
    · rcases List.mem_append.mp hp with hp' | hp' <;> rcases List.mem_append.mp hq with hq' | hq'
      · exact hw.rows.ids p hp' q hq' he
      · obtain rfl := List.mem_singleton.mp hq'
        exact absurd he (hnew p hp').1
      · obtain rfl := List.mem_singleton.mp hp'
        exact absurd he.symm (hnew q hq').1
      · rw [List.mem_singleton.mp hp',List.mem_singleton.mp hq']
    · rcases List.mem_append.mp hp with hp' | hp' <;> rcases List.mem_append.mp hq with hq' | hq'
      · exact hw.rows.pairs p hp' q hq' hl hu
      · obtain rfl := List.mem_singleton.mp hq'
        exact absurd ⟨hl,hu⟩ (hnew p hp').2
      · obtain rfl := List.mem_singleton.mp hp'
        exact absurd ⟨hl.symm,hu.symm⟩ (hnew q hq').2
      · rw [List.mem_singleton.mp hp',List.mem_singleton.mp hq']
    · rcases List.mem_append.mp hp with hp | hp
      · exact hkept.refs p hp
      · obtain rfl := List.mem_singleton.mp hp
        obtain ⟨l,hl,rfl,_⟩ := latest_mem hlog
        exact hids l hl
    · rcases List.mem_append.mp hp with hp | hp
      · exact hjoined p hp
      · obtain rfl := List.mem_singleton.mp hp
        exact le_refl _
    · rcases List.mem_append.mp hp with hp | hp
      · exact hleft p hp s hs
      · obtain rfl := List.mem_singleton.mp hp
        simp at hs
  | closed r u logId q _ _ _ hps =>
    rw [hps]
    refine hw.rows.update hids (fun p => ?_) (fun p hp => ?_) (fun p hp s hs => ?_)
    · split <;> exact ⟨rfl,rfl,rfl⟩
    · split <;> exact hjoined p hp
    · split at hs
      · obtain rfl := Option.some.inj hs
        exact le_refl _
      · exact hleft p hp s hs

theorem World.Past.next (hw : w.Past t) (ht : t < m.setting.now) (hf : w.Fresh m.ids) :
    (w.next m).Past m.setting.now :=
  ⟨(logs_change hf).past hw.logs ht hf,rows_change.past hw ht hf (logs_change hf).ids⟩

/-! ### The newest log -/

theorem isLatest_unique {r : String} (hw : LogsPast w.callLogs t) (ha : w.IsLatest r a) (hb : w.IsLatest r b) :
    a = b := by
  obtain ⟨l,hl,rfl,hlr,hlmax⟩ := ha
  obtain ⟨k,hk,rfl,hkr,hkmax⟩ := hb
  have he : l.startedAt = k.startedAt := le_antisymm (hkmax l hl hlr) (hlmax k hk hkr)
  rw [hw.distinct l hl k hk r hlr hkr he]

theorem isLatest_room {r : String} (hw : LogsPast w.callLogs t) (ha : w.IsLatest room a) (hb : w.IsLatest r a) :
    r = room := by
  obtain ⟨l,hl,hla,hlr,_⟩ := ha
  obtain ⟨k,hk,hka,hkr,_⟩ := hb
  obtain rfl := hw.ids l hl k hk (hla.trans hka.symm)
  exact Option.some.inj (hkr.symm.trans hlr)

theorem latestLogId_of_isLatest {e : Setting} (hw : LogsPast w.callLogs t) (ha : w.IsLatest room a) :
    w.latestLogId e room = some a := by
  obtain ⟨l,hl,hla,hlr,hmax⟩ := ha
  have hnewest : l ∈ w.newestLogs room := by
    refine List.mem_filter.mpr ⟨List.mem_filter.mpr ⟨hl,by simpa using hlr⟩,?_⟩
    simpa using hmax
  have hlt : e.pick % (w.newestLogs room).length < (w.newestLogs room).length :=
    Nat.mod_lt _ (List.length_pos_of_mem hnewest)
  have hfound : w.latestLogId e room = some ((w.newestLogs room)[e.pick % (w.newestLogs room).length]).id := by
    rw [World.latestLogId,List.getElem?_eq_getElem hlt]
    rfl
  rw [hfound,isLatest_unique hw (latest_mem hfound) ⟨l,hl,hla,hlr,hmax⟩]

/-- A moment that opens no log of the room keeps its newest log. -/
theorem isLatest_next (hf : w.Fresh m.ids) (ha : w.IsLatest room a) (ho : w.opens? m ≠ some room) :
    (w.next m).IsLatest room a := by
  obtain ⟨l,hl,hla,hlr,hmax⟩ := ha
  cases logs_change hf with
  | kept f _ hkeys hls =>
    refine ⟨f l,hls ▸ List.mem_map_of_mem hl,(hkeys l).1.trans hla,(hkeys l).2.1.trans hlr,fun k hk hkr => ?_⟩
    rw [hls] at hk
    obtain ⟨k',hk',rfl⟩ := List.mem_map.mp hk
    rw [(hkeys k').2.1] at hkr
    rw [(hkeys k').2.2,(hkeys l).2.2]
    exact hmax k' hk' hkr
  | opened n hopens _ _ _ hls =>
    refine ⟨l,hls ▸ List.mem_append_left _ hl,hla,hlr,fun k hk hkr => ?_⟩
    rw [hls] at hk
    rcases List.mem_append.mp hk with hk' | hk'
    · exact hmax k hk' hkr
    · obtain rfl := List.mem_singleton.mp hk'
      exact absurd (hopens.trans hkr) ho

/-- The newest log has no row of the user. -/
def World.Missing (w : World) (room : String) (u : Uuid) : Prop :=
  ∃ a, w.IsLatest room a ∧ ∀ p ∈ w.participants, p.callLogId = a → p.userId ≠ u

/-- A moment that opens a log of the room leaves the newest one without rows. -/
theorem missing_of_opens (hw : w.Past t) (ht : t < m.setting.now) (hf : w.Fresh m.ids)
    (ho : w.opens? m = some room) : (w.next m).Missing room u := by
  have hrefs := (rows_change.past hw ht hf fun l hl => ⟨l,hl,rfl⟩).refs
  cases logs_change hf with
  | kept f hnone _ _ => simp [ho] at hnone
  | opened n hopens _ hid hstart hls =>
    refine ⟨n.id,⟨n,by simp [hls],rfl,hopens.symm.trans ho,fun k hk hkr => ?_⟩,fun p hp hpn => ?_⟩
    · rw [hls] at hk
      rcases List.mem_append.mp hk with hk' | hk'
      · have hle := hw.logs.started k hk'
        omega
      · rw [List.mem_singleton.mp hk']
    · obtain ⟨l,hl,hle⟩ := hrefs p hp
      exact absurd (hle.trans (hpn.trans hid)) (hf.log l hl)

/-- The row of a join, with the time of the join. -/
def World.Holds (w : World) (id logId u : Uuid) (s : ℕ) : Prop :=
  ∃ p ∈ w.participants, p.id = id ∧ p.callLogId = logId ∧ p.userId = u ∧ p.joinedAt = s

/-- A join into the newest log of another room, or of another user, is not one into this row. -/
theorem not_joined {r : String} {v : Uuid} (hw : LogsPast w.callLogs t) (ha : w.IsLatest room a)
    (hlog : w.latestLogId m.setting r = some a) (hj : m.Joins r v) (hno : ¬ m.Joins room u) : v ≠ u := by
  rintro rfl
  obtain rfl := isLatest_room hw ha (latest_mem hlog)
  exact hno hj

theorem holds_next {id : Uuid} {s : ℕ} (hw : LogsPast w.callLogs t) (ha : w.IsLatest room a)
    (hno : ¬ m.Joins room u) (h : w.Holds id a u s) : (w.next m).Holds id a u s := by
  obtain ⟨p,hp,hid,hpa,hpu,hps⟩ := h
  cases rows_change (w := w) (m := m) with
  | kept hrows => exact ⟨p,hrows ▸ hp,hid,hpa,hpu,hps⟩
  | reset r v logId hj hlog hrows =>
    refine ⟨p,hrows ▸ List.mem_map.mpr ⟨p,hp,if_neg ?_⟩,hid,hpa,hpu,hps⟩
    rintro ⟨hpl,hpv⟩
    obtain rfl : a = logId := hpa.symm.trans hpl
    exact not_joined hw ha hlog hj hno (hpv.symm.trans hpu)
  | added r v logId name _ _ _ hrows => exact ⟨p,hrows ▸ List.mem_append_left _ hp,hid,hpa,hpu,hps⟩
  | closed r v logId q _ _ _ hrows =>
    refine ⟨_,hrows ▸ List.mem_map_of_mem hp,?_⟩
    split <;> exact ⟨hid,hpa,hpu,hps⟩

theorem missing_next (hw : w.Past t) (ht : t < m.setting.now) (hf : w.Fresh m.ids) (hno : ¬ m.Joins room u)
    (h : w.Missing room u) : (w.next m).Missing room u := by
  by_cases ho : w.opens? m = some room
  · exact missing_of_opens hw ht hf ho
  · obtain ⟨a,ha,hrows⟩ := h
    refine ⟨a,isLatest_next hf ha ho,fun p hp hpa => ?_⟩
    cases rows_change (w := w) (m := m) with
    | kept hps => exact hrows p (hps ▸ hp) hpa
    | reset r v logId _ _ hps =>
      obtain ⟨q,hq,rfl⟩ := List.mem_map.mp (hps ▸ hp)
      have hkeys : (if q.callLogId = logId ∧ q.userId = v then World.rejoin m.setting q else q).callLogId =
          q.callLogId ∧ (if q.callLogId = logId ∧ q.userId = v then World.rejoin m.setting q else q).userId =
          q.userId := by
        split <;> exact ⟨rfl,rfl⟩
      rw [hkeys.2]
      exact hrows q hq (hkeys.1.symm.trans hpa)
    | added r v logId name hj hlog _ hps =>
      rcases List.mem_append.mp (hps ▸ hp) with hp' | hp'
      · exact hrows p hp' hpa
      · obtain rfl := List.mem_singleton.mp hp'
        obtain rfl : logId = a := hpa
        exact not_joined hw.logs ha hlog hj hno
    | closed r v logId q _ _ _ hps =>
      obtain ⟨k,hk,rfl⟩ := List.mem_map.mp (hps ▸ hp)
      have hkeys : (if k.id = q.id then World.leave m.setting q.joinedAt k else k).callLogId = k.callLogId ∧
          (if k.id = q.id then World.leave m.setting q.joinedAt k else k).userId = k.userId := by
        split <;> exact ⟨rfl,rfl⟩
      rw [hkeys.2]
      exact hrows k hk (hkeys.1.symm.trans hpa)

/-! ### Stretches of moments -/

theorem after_append (w : World) (xs ys : List Moment) : w.after (xs++ys) = (w.after xs).after ys :=
  List.foldl_append ..

theorem past_after {xs ys : List Moment} (hw : w.Past t) (h : w.Admits t (xs++ys)) :
    ∃ n, (w.after xs).Past n ∧ (w.after xs).Admits n ys := by
  induction xs generalizing w t with
  | nil => exact ⟨t,hw,h⟩
  | cons m xs ih =>
    obtain ⟨ht,hf,hrest⟩ := h
    exact ih (hw.next ht hf) hrest

theorem admits_left {xs ys : List Moment} (h : w.Admits t (xs++ys)) : w.Admits t xs := by
  induction xs generalizing w t with
  | nil => trivial
  | cons m xs ih => exact ⟨h.1,h.2.1,ih h.2.2⟩

/-- While no log of the room is opened, the row of the join stays in the newest log. -/
theorem holds_after {id : Uuid} {s : ℕ} {ms : List Moment} (hw : w.Past t) (h : w.Admits t ms)
    (hno : ∀ m ∈ ms, ¬ m.Joins room u) (hquiet : w.Undisturbed room ms) (ha : w.IsLatest room a)
    (hrow : w.Holds id a u s) : (w.after ms).IsLatest room a ∧ (w.after ms).Holds id a u s := by
  induction ms generalizing w t with
  | nil => exact ⟨ha,hrow⟩
  | cons m ms ih =>
    obtain ⟨ht,hf,hrest⟩ := h
    have hm := hno m List.mem_cons_self
    exact ih (hw.next ht hf) hrest (fun k hk => hno k (List.mem_cons_of_mem _ hk)) hquiet.2
      (isLatest_next hf ha hquiet.1) (holds_next hw.logs ha hm hrow)

theorem missing_after {ms : List Moment} (hw : w.Past t) (h : w.Admits t ms)
    (hno : ∀ m ∈ ms, ¬ m.Joins room u) (hmissing : w.Missing room u) : (w.after ms).Missing room u := by
  induction ms generalizing w t with
  | nil => exact hmissing
  | cons m ms ih =>
    obtain ⟨ht,hf,hrest⟩ := h
    exact ih (hw.next ht hf) hrest (fun k hk => hno k (List.mem_cons_of_mem _ hk))
      (missing_next hw ht hf (hno m List.mem_cons_self) hmissing)

/-- Once a log of the room is opened, the newest log has no row of the user. -/
theorem missing_of_disturbed {ms : List Moment} (hw : w.Past t) (h : w.Admits t ms)
    (hno : ∀ m ∈ ms, ¬ m.Joins room u) (hd : ¬ w.Undisturbed room ms) : (w.after ms).Missing room u := by
  induction ms generalizing w t with
  | nil => exact absurd trivial hd
  | cons m ms ih =>
    obtain ⟨ht,hf,hrest⟩ := h
    have hno' : ∀ k ∈ ms, ¬ k.Joins room u := fun k hk => hno k (List.mem_cons_of_mem _ hk)
    by_cases ho : w.opens? m = some room
    · show ((w.next m).after ms).Missing room u
      exact missing_after (hw.next ht hf) hrest hno' (missing_of_opens hw ht hf ho)
    · exact ih (hw.next ht hf) hrest hno' fun hq => hd ⟨ho,hq⟩

/-! ### The join and the leave -/

/-- The row a join has written belongs to the newest log of its room. -/
theorem joined_row {identity name : String} {row : Participant} (hw : w.Past t) (ht : t < m.setting.now)
    (hf : w.Fresh m.ids) (hm : m.what = .webhook ⟨.participantJoined,room,identity,name⟩)
    (hrow : row ∈ (w.next m).participants) (hnow : row.joinedAt = m.setting.now) :
    room ≠ "" ∧ isUuid identity = true ∧ (w.next m).IsLatest room row.callLogId ∧
      (w.next m).Holds row.id row.callLogId (.ofText identity) m.setting.now := by
  have hopens : w.opens? m ≠ some room := by simp [World.opens?,hm]
  have hroom : room ≠ "" := by
    rintro rfl
    have hsame : w.next m = w := by simp [World.next,hm,World.handleWebhook]
    have hle := hw.rows.joined row (by rwa [hsame] at hrow)
    omega
  have hfrom : ∀ {r v a}, m.Joins r v → w.latestLogId m.setting r = some a → row.callLogId = a → row.userId = v →
      room ≠ "" ∧ isUuid identity = true ∧ (w.next m).IsLatest room row.callLogId ∧
        (w.next m).Holds row.id row.callLogId (.ofText identity) m.setting.now := by
    rintro r v a ⟨identity',name',he,hid,rfl⟩ hlog rfl hu
    obtain ⟨_,rfl,rfl,rfl⟩ := Webhook.mk.inj (Happening.webhook.inj (hm.symm.trans he))
    exact ⟨hroom,hid,isLatest_next hf (latest_mem hlog) hopens,row,hrow,rfl,rfl,hu,hnow⟩
  have hold : row ∉ w.participants := fun hin => by
    have hle := hw.rows.joined row hin
    omega
  cases rows_change (w := w) (m := m) with
  | kept hps => exact absurd (hps ▸ hrow) hold
  | reset r v a hj hlog hps =>
    obtain ⟨q,hq,he⟩ := List.mem_map.mp (hps ▸ hrow)
    by_cases hk : q.callLogId = a ∧ q.userId = v
    · rw [if_pos hk] at he
      subst he
      exact hfrom hj hlog hk.1 hk.2
    · rw [if_neg hk] at he
      exact absurd (he ▸ hq) hold
  | added r v a name hj hlog _ hps =>
    rcases List.mem_append.mp (hps ▸ hrow) with hin | hin
    · exact absurd hin hold
    · obtain rfl := List.mem_singleton.mp hin
      exact hfrom hj hlog rfl rfl
  | closed r v a q hl _ _ _ =>
    obtain ⟨identity',name',he,_⟩ := hl
    simp [hm] at he

theorem next_left {identity name : String} (hm : m.what = .webhook ⟨.participantLeft,room,identity,name⟩)
    (hroom : room ≠ "") (hid : isUuid identity = true) :
    w.next m = w.handleParticipantLeft m.setting room identity := by
  have hne : identity ≠ "" := by
    rintro rfl
    simpa using isUuid_length hid
  simp only [World.next,hm,World.handleWebhook,hroom,hne,or_self,if_false]

/-- The row that the leave of a user has to close. -/
def Closed (row : Uuid) (joined left : ℕ) (ps : List Participant) : Prop :=
  ∃ p ∈ ps, p.id = row ∧ p.leftAt = some left ∧ p.duration = some (((left-joined)/1000 : ℕ) : ℤ)

theorem callDuration_of_le {s n : ℕ} (h : s ≤ n) : Calls.callDuration s n = (((n-s)/1000 : ℕ) : ℤ) := by
  unfold Calls.callDuration
  omega

theorem closed_of_holds {identity name : String} {id : Uuid} {s : ℕ} (hw : w.Past t) (ht : t < m.setting.now)
    (hm : m.what = .webhook ⟨.participantLeft,room,identity,name⟩) (hroom : room ≠ "")
    (hid : isUuid identity = true) (ha : w.IsLatest room a) (h : w.Holds id a (.ofText identity) s) :
    Closed id s m.setting.now (w.next m).participants := by
  obtain ⟨p,hp,rfl,hpa,hpu,rfl⟩ := h
  have hfound : (w.participant? a (.ofText identity)).isSome = true := by
    rw [World.participant?,List.find?_isSome]
    exact ⟨p,hp,by simp [hpa,hpu]⟩
  obtain ⟨q,hq⟩ := Option.isSome_iff_exists.mp hfound
  obtain ⟨hqin,hqa,hqu⟩ := participant_of hq
  obtain rfl := hw.rows.pairs p hp q hqin (hpa.trans hqa.symm) (hpu.trans hqu.symm)
  have hle := (hw.rows.joined p hp).trans ht.le
  simp only [next_left hm hroom hid,World.handleParticipantLeft,hid,Bool.not_true,Bool.false_eq_true,if_false,
    latestLogId_of_isLatest hw.logs ha,hq]
  refine ⟨_,List.mem_map_of_mem hp,?_⟩
  rw [if_pos rfl]
  exact ⟨rfl,rfl,congrArg some (callDuration_of_le hle)⟩

theorem not_closed_of_missing {identity name : String} {id : Uuid} {s : ℕ} (hw : w.Past t)
    (ht : t < m.setting.now) (hm : m.what = .webhook ⟨.participantLeft,room,identity,name⟩) (hroom : room ≠ "")
    (hid : isUuid identity = true) (h : w.Missing room (.ofText identity)) :
    ¬ Closed id s m.setting.now (w.next m).participants := by
  obtain ⟨a,ha,hrows⟩ := h
  have hnone : w.participant? a (.ofText identity) = none := by
    refine List.find?_eq_none.mpr fun p hp => ?_
    simpa using hrows p hp
  rintro ⟨p,hp,_,hleft,_⟩
  simp only [next_left hm hroom hid,World.handleParticipantLeft,hid,Bool.not_true,Bool.false_eq_true,if_false,
    latestLogId_of_isLatest hw.logs ha,hnone] at hp
  have hle := hw.rows.left p hp _ hleft
  omega

end

/-- A leave closes the row its user's join has written, with the whole seconds between them,
exactly if no log of the room has been created since the join. -/
theorem group_call_history (w₀ : World) (t : ℕ) (xs ms : List Moment) (j l : Moment)
    (room identity name identity' name' : String) (row : Participant) (h₀ : w₀.Past t)
    (h : w₀.Admits t (xs++j::(ms++[l]))) (hj : j.what = .webhook ⟨.participantJoined,room,identity,name⟩)
    (hrow : row ∈ (w₀.after (xs++[j])).participants) (hnow : row.joinedAt = j.setting.now)
    (hno : ∀ m ∈ ms, ¬ m.Joins room (.ofText identity))
    (hl : l.what = .webhook ⟨.participantLeft,room,identity',name'⟩) (hid : isUuid identity' = true)
    (hsame : Uuid.ofText identity' = Uuid.ofText identity) :
    Closed row.id j.setting.now l.setting.now (w₀.after (xs++j::(ms++[l]))).participants ↔
      (w₀.after (xs++[j])).Undisturbed room ms := by
  obtain ⟨n,hpast,ht,hf,hrest⟩ := past_after h₀ h
  have hjoined : w₀.after (xs++[j]) = (w₀.after xs).next j := after_append w₀ xs [j]
  have hall : w₀.after (xs++j::(ms++[l])) = (((w₀.after xs).next j).after ms).next l := by
    rw [after_append]
    exact after_append _ ms [l]
  rw [hjoined] at hrow
  obtain ⟨hroom,_,hlatest,hholds⟩ := joined_row hpast ht hf hj hrow hnow
  have hpast' := hpast.next ht hf
  obtain ⟨k,hbefore,htl,_,_⟩ := past_after hpast' hrest
  have hms : ((w₀.after xs).next j).Admits j.setting.now ms := admits_left hrest
  rw [hall,hjoined]
  constructor
  · intro hclosed
    by_contra hd
    have hmissing := missing_of_disturbed hpast' hms hno hd
    exact not_closed_of_missing hbefore htl hl hroom hid (hsame ▸ hmissing) hclosed
  · intro hquiet
    obtain ⟨hlatest',hholds'⟩ := holds_after hpast' hms hno hquiet hlatest hholds
    exact closed_of_holds hbefore htl hl hroom hid hlatest' (hsame ▸ hholds')

/-! ### Two initiations -/

theorem choir_past : choir.Past 0 :=
  ⟨⟨by simp [choir],by simp [choir],by simp [choir]⟩,
    ⟨by simp [choir],by simp [choir],by simp [choir],by simp [choir],by simp [choir]⟩⟩

/-- A member calls the channel. -/
def callsAt (now : ℕ) (user : SocketUser) : Moment := ⟨⟨now,0⟩,⟨now,now⟩,.groupCall user.id choirId⟩

def joinsAt (now : ℕ) (user : SocketUser) : Moment :=
  ⟨⟨now,0⟩,⟨now,now⟩,.webhook ⟨.participantJoined,getGroupRoomName choirId,user.id,user.username⟩⟩

def leavesAt (now : ℕ) (user : SocketUser) : Moment :=
  ⟨⟨now,0⟩,⟨now,now⟩,.webhook ⟨.participantLeft,getGroupRoomName choirId,user.id,user.username⟩⟩

def startsAt (now : ℕ) : Moment :=
  ⟨⟨now,0⟩,⟨now,now⟩,.webhook ⟨.roomStarted,getGroupRoomName choirId,"",""⟩⟩

def World.fresh (w : World) (i : Ids) : Bool :=
  w.callLogs.all (·.id ≠ i.log) && w.participants.all (·.id ≠ i.participant)

def World.admits : World → ℕ → List Moment → Bool
  | _, _, [] => true
  | w, t, m::ms => t < m.setting.now && w.fresh m.ids && (w.next m).admits m.setting.now ms

theorem admits_sound {w : World} {t : ℕ} {ms : List Moment} (h : w.admits t ms = true) : w.Admits t ms := by
  induction ms generalizing w t with
  | nil => trivial
  | cons m ms ih =>
    simp only [World.admits,World.fresh,Bool.and_eq_true,List.all_eq_true,decide_eq_true_eq] at h
    exact ⟨h.1.1,⟨h.1.2.1,h.1.2.2⟩,ih h.2⟩

/-- The row of ann in the call that began at 1000. -/
def annRow (left : Option ℕ) (duration : Option ℤ) : Participant :=
  ⟨2500,1000,.ofText ann.id,ann.username,2500,left,duration⟩

/-- The room starts after the call: `handleRoomStarted` finds its log. -/
theorem group_call_history_choir :
    choir.Past 0 ∧ Closed 2500 2500 9000
      (choir.after ([callsAt 1000 ann]++joinsAt 2500 ann::([startsAt 3000]++[leavesAt 9000 ann]))).participants := by
  have hrun : choir.admits 0 ([callsAt 1000 ann]++joinsAt 2500 ann::([startsAt 3000]++[leavesAt 9000 ann])) = true ∧
      annRow none none ∈ (choir.after ([callsAt 1000 ann]++[joinsAt 2500 ann])).participants ∧
      (choir.after ([callsAt 1000 ann]++[joinsAt 2500 ann])).opens? (startsAt 3000) = none ∧
      isUuid ann.id = true := by decide +kernel
  obtain ⟨hadmits,hrow,hopens,hid⟩ := hrun
  have hjoins : ∀ m ∈ [startsAt 3000], ¬ m.Joins (getGroupRoomName choirId) (.ofText ann.id) := by
    rintro m hm ⟨_,_,he,_⟩
    obtain rfl := List.mem_singleton.mp hm
    simp [startsAt] at he
  exact ⟨choir_past,(group_call_history choir 0 [callsAt 1000 ann] [startsAt 3000] (joinsAt 2500 ann)
    (leavesAt 9000 ann) _ _ _ _ _ (annRow none none) choir_past (admits_sound hadmits) rfl hrow rfl hjoins rfl hid
    rfl).mpr ⟨fun ho => absurd (hopens.symm.trans ho) (by simp),trivial⟩⟩

/-- Another member calls the channel while ann is in the room: her leave is lost. -/
theorem second_initiation_loses_leave :
    choir.admits 0 [callsAt 1000 ann,joinsAt 2500 ann,callsAt 3000 bea,leavesAt 9000 ann] = true ∧
      (choir.after [callsAt 1000 ann,joinsAt 2500 ann]).participants = [annRow none none] ∧
      (choir.after [callsAt 1000 ann,joinsAt 2500 ann,callsAt 3000 bea,leavesAt 9000 ann]).participants =
        [annRow none none] := by
  decide +kernel

end LiveKit

end ZevraServer
