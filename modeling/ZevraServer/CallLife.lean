import ZevraServer.CallEffects
import Mathlib.Logic.Relation

/-!
# The life of a call

A call rings, may be connected and ends; its log is completed with the duration of the
connection. This holds as long as a connected call is neither accepted again nor rejected:
`handleAccept` and `handleReject` do not look at the status.
-/

namespace ZevraServer

namespace Calls

/-- What the world shows of a call. -/
inductive Phase
  | absent
  | ringing
  | connected (startedAt : ℕ)
  | ended
  deriving DecidableEq, Repr

def World.phase (w : World) (callId : String) : Phase :=
  match toActiveCall callId (w.room callId) with
  | some call =>
    match call.status with
    | .ringing => .ringing
    | .connected => .connected call.startedAt
  | none => if callId ∈ w.drawn then .ended else .absent

inductive Phase.Moves : Phase → Phase → Prop
  | stay (p) : Moves p p
  | ring : Moves .absent .ringing
  | connect (t) : Moves .ringing (.connected t)
  | unanswered : Moves .ringing .ended
  | finish (t) : Moves (.connected t) .ended

/-- Users and participants in good order, and no call. -/
structure Opened (w : World) : Prop extends Started w where
  users : ∀ u ∈ w.users, u.id ≠ ""
  participants : ∀ q ∈ w.participants, (w.log? q.callLogId).isSome

theorem Opened.orderly {w : World} (h : Opened w) : w.Orderly where
  users := h.users
  participants := h.participants
  live c _ hr := by simp [h.room c] at hr
  keys u _ hk := by simp [h.userCall u] at hk
  oneCall := h.toStarted.oneCall
  logs c _ _ _ hp := by simp [World.parties?,h.room c] at hp

/-! ### The tables -/

/-- Only the log `id` and its participants may differ. -/
structure World.Touches (w w' : World) (id : String) : Prop where
  users : w'.users = w.users
  log? : ∀ l, l ≠ id → w'.log? l = w.log? l
  participantsOf : ∀ l, l ≠ id → w'.participantsOf l = w.participantsOf l
  now : w'.now = w.now

section

variable {w w' w'' : World} {id : String}

theorem World.SameTables.touches (h : w.SameTables w') : w.Touches w' id :=
  ⟨h.users,fun l _ => by simp only [World.log?,h.callLogs],
    fun l _ => by simp only [World.participantsOf,h.participants],h.now⟩

theorem World.Touches.trans (h : w.Touches w' id) (h' : w'.Touches w'' id) : w.Touches w'' id :=
  ⟨h'.users.trans h.users,fun l hl => (h'.log? l hl).trans (h.log? l hl),
    fun l hl => (h'.participantsOf l hl).trans (h.participantsOf l hl),h'.now.trans h.now⟩

theorem World.log?_updateCallLog {f : CallLog → CallLog} (hf : ∀ l, (f l).id = l.id) (l : String) :
    (w.updateCallLog id f).log? l = if l = id then (w.log? l).map f else w.log? l := by
  have hlist : ∀ ls : List CallLog, (ls.map fun k => if k.id = id then f k else k).find? (·.id = l) =
      if l = id then (ls.find? (·.id = l)).map f else ls.find? (·.id = l) := by
    intro ls
    induction ls with
    | nil => simp
    | cons k ls ih =>
      rw [List.map_cons,List.find?_cons,List.find?_cons,ih]
      by_cases hk : k.id = id
      · rw [if_pos hk,hf k]
        by_cases hl : k.id = l
        · have hid : l = id := hl.symm.trans hk
          simp [hl,hid]
        · simp [hl]
      · rw [if_neg hk]
        by_cases hl : k.id = l
        · have hid : l ≠ id := fun he => hk (hl.trans he)
          simp [hl,hid]
        · simp [hl]
  exact hlist w.callLogs

theorem World.updateCallLog_touches {f : CallLog → CallLog} (hf : ∀ l, (f l).id = l.id) :
    w.Touches (w.updateCallLog id f) id :=
  ⟨rfl,fun l hl => by rw [World.log?_updateCallLog hf,if_neg hl],fun _ _ => rfl,rfl⟩

theorem World.updateCallLogAccepted_touches : w.Touches (w.updateCallLogAccepted id) id :=
  World.updateCallLog_touches fun _ => rfl

theorem World.updateCallLogRejected_touches : w.Touches (w.updateCallLogRejected id) id :=
  World.updateCallLog_touches fun _ => rfl

/-- The log that an update leaves. -/
theorem World.log?_updated {f : CallLog → CallLog} (hf : ∀ l, (f l).id = l.id)
    (ht : (w.updateCallLog id f).SameTables w') : w'.log? id = (w.log? id).map f := by
  have hupdate : (w.updateCallLog id f).log? id = if id = id then (w.log? id).map f else w.log? id :=
    World.log?_updateCallLog hf id
  rw [if_pos rfl] at hupdate
  rw [← hupdate]
  simp only [World.log?,ht.callLogs]

theorem World.log?_accepted (ht : (w.updateCallLogAccepted id).SameTables w') :
    w'.log? id = (w.log? id).map fun l => { l with status := .completed } :=
  World.log?_updated (fun _ => rfl) ht

theorem World.log?_rejected (ht : (w.updateCallLogRejected id).SameTables w') :
    w'.log? id = (w.log? id).map fun l => { l with status := .rejected } :=
  World.log?_updated (fun _ => rfl) ht

theorem World.insertParticipant_touches {p : Participant} (hp : p.callLogId = id) :
    w.Touches (w.insertParticipant p) id := by
  unfold World.insertParticipant
  split
  · exact World.SameTables.rfl.touches
  · refine ⟨rfl,fun _ _ => rfl,fun l hl => ?_,rfl⟩
    have hne : p.callLogId ≠ l := fun he => hl (he.symm.trans hp)
    simp [World.participantsOf,List.filter_append,hne]

theorem World.recorded_touches {call : ActiveCall} : w.Touches (w.recorded call id) id := by
  have hclose : w.Touches (w.closeCallLog id call.startedAt w.now) id :=
    World.updateCallLog_touches fun _ => rfl
  exact (hclose.trans (World.insertParticipant_touches rfl)).trans (World.insertParticipant_touches rfl)

theorem World.log?_recorded {call : ActiveCall} (ht : (w.recorded call id).SameTables w') : w'.log? id =
    (w.log? id).map fun l =>
      { l with endedAt := some w.now, duration := some (callDuration call.startedAt w.now), status := .completed } := by
  have hinsert : ∀ (v : World) (q : Participant), (v.insertParticipant q).log? id = v.log? id := by
    intro v q
    unfold World.insertParticipant
    split <;> rfl
  have hsame : w'.log? id = (w.recorded call id).log? id := by simp only [World.log?,ht.callLogs]
  have hrecorded : (w.recorded call id).log? id = (w.closeCallLog id call.startedAt w.now).log? id :=
    (hinsert _ _).trans (hinsert _ _)
  rw [hsame,hrecorded]
  exact World.log?_updated (fun _ => rfl) .rfl

/-- The row that `createCallLog` adds. -/
theorem World.createCallLog_eq {a b : RawId} {ch : Option String} (h : w.createCallLog id a b ch = some w') :
    w.isUser a ∧ w.isUser b ∧ w.log? id = none ∧
      w' = { w with callLogs := w.callLogs++[⟨id,a,b,ch,.missed,none,none⟩] } := by
  unfold World.createCallLog at h
  split at h
  · rename_i hcond
    obtain ⟨ha,hb,_,hfresh⟩ := hcond
    refine ⟨ha,hb,?_,(Option.some.inj h).symm⟩
    simpa [World.log?] using hfresh
  · simp at h

theorem World.createCallLog_touches {a b : RawId} {ch : Option String}
    (h : w.createCallLog id a b ch = some w') : w.Touches w' id := by
  obtain ⟨_,_,_,rfl⟩ := World.createCallLog_eq h
  refine ⟨rfl,fun l hl => ?_,fun _ _ => rfl,rfl⟩
  simp [World.log?,List.find?_append,Ne.symm hl]

theorem World.createCallLog_log? {a b : RawId} {ch : Option String}
    (h : w.createCallLog id a b ch = some w') : w'.log? id = some ⟨id,a,b,ch,.missed,none,none⟩ := by
  obtain ⟨_,_,hnone,rfl⟩ := World.createCallLog_eq h
  have hfind : w.callLogs.find? (·.id = id) = none := hnone
  simp [World.log?,List.find?_append,hfind]

end

/-! ### The invariant -/

section

variable {w w' : World} {c id : String} {h : Hash} {p : Parties}

theorem World.LiveCall.logged (hl : w.LiveCall c h p) : (w.log? p.callLogId).isSome := by
  obtain ⟨l,hlog,_⟩ := hl.log
  simp [hlog]

/-- A call whose log is not touched stays as it is. -/
theorem World.LiveCall.touched (hl : w.LiveCall c h p) (ht : w.Touches w' id) (hid : p.callLogId ≠ id)
    (hdrawn : ∀ c ∈ w.drawn, c ∈ w'.drawn) : w'.LiveCall c h p where
  parties := hl.parties
  drawn := hdrawn c hl.drawn
  users := by simpa only [World.isUser,ht.users] using hl.users
  distinct := hl.distinct
  named := hl.named
  log := by simpa only [ht.log? _ hid] using hl.log
  fresh := by
    have hnone : w'.participantsOf p.callLogId = [] := by
      rw [ht.participantsOf _ hid]
      exact List.filter_eq_nil_iff.mpr fun q hq => by simpa using hl.fresh q hq
    intro q hq
    simpa using List.filter_eq_nil_iff.mp hnone q hq
  started := ht.now ▸ hl.started

theorem World.Orderly.touched_participants (ho : w.Orderly) (ht : w.Touches w' id)
    (hid : (w'.log? id).isSome) : ∀ q ∈ w'.participants, (w'.log? q.callLogId).isSome := by
  intro q hq
  by_cases he : q.callLogId = id
  · rw [he]
    exact hid
  · have hmem : q ∈ w.participantsOf q.callLogId := by
      rw [← ht.participantsOf _ he]
      exact List.mem_filter.mpr ⟨hq,by simp⟩
    rw [ht.log? _ he]
    exact ho.participants q (List.mem_filter.mp hmem).1

theorem World.Orderly.logged (ho : w.Orderly) (hp : w.parties? c = some p) : (w.log? p.callLogId).isSome := by
  obtain ⟨h,_,hl⟩ := ho.liveCall hp
  exact hl.logged

theorem World.Orderly.congr (ho : w.Orderly) (hk : w.SameKeys w') (ht : w.SameTables w') : w'.Orderly where
  users := ht.users ▸ ho.users
  participants := by simpa only [ht.participants,World.log?,ht.callLogs] using ho.participants
  live c h hr := by
    obtain ⟨p,hl⟩ := ho.live c h (hk.room ▸ hr)
    exact ⟨p,hl.congr hk.drawn ht⟩
  keys := by simpa only [hk.userCall,hk.parties?] using ho.keys
  oneCall := hk.oneCall.mpr ho.oneCall
  logs := by simpa only [hk.parties?] using ho.logs

/-- A new call of two free users, with a new log. -/
theorem World.Orderly.rang {e : Setting} {a b : RawId} {ch : Option String} {v : World} (ho : w.Orderly)
    (ha : w.getActiveCall a = none) (hb : w.getActiveCall b = none) (hne : a ≠ b)
    (hv : w.createCallLog e.logId a b ch = some v) (hfresh : e.callId ∉ w.drawn) (hid : e.logId ≠ "")
    (hk : (w.createCall e.callId a b e.logId).SameKeys w') (ht : v.SameTables w') : w'.Orderly := by
  obtain ⟨hua,hub,hnew,_⟩ := World.createCallLog_eq hv
  have htouch : w.Touches w' e.logId := (World.createCallLog_touches hv).trans ht.touches
  have hlog : w'.log? e.logId = some ⟨e.logId,a,b,ch,.missed,none,none⟩ := by
    simp only [World.log?,ht.callLogs]
    exact World.createCallLog_log? hv
  have hother : ∀ {c p}, w.parties? c = some p → p.callLogId ≠ e.logId := by
    intro c p hp he
    have hsome := ho.logged hp
    simp [he,hnew] at hsome
  have hdrawn : ∀ c ∈ w.drawn, c ∈ w'.drawn := by
    intro c hc
    rw [hk.drawn]
    exact List.mem_append_left _ hc
  have hparties : ∀ c, w'.parties? c = if c = e.callId then some ⟨a,b,e.logId⟩ else w.parties? c := by
    intro c
    rw [hk.parties?]
    exact World.parties?_createCall
  have hold : ∀ {c p}, w'.parties? c = some p → c ≠ e.callId → w.parties? c = some p := by
    intro c p hp hc
    rwa [hparties,if_neg hc] at hp
  have hfree : ∀ u ∈ [a,b], ¬ w.Busy u e.callId := by
    intro u hu
    rcases List.mem_pair.mp hu with rfl | rfl
    · exact ho.not_busy ha _
    · exact ho.not_busy hb _
  refine ⟨htouch.users ▸ ho.users,ho.touched_participants htouch (by simp [hlog]),?_,?_,?_,?_⟩
  · intro c h hr
    have hroom : w'.room c = (w.createCall e.callId a b e.logId).room c := by rw [hk.room]
    by_cases hc : c = e.callId
    · subst hc
      have hh : h = ⟨some ⟨a,b,e.logId⟩,.ringing,w.now⟩ := by
        have hrow : some h = some ⟨some ⟨a,b,e.logId⟩,.ringing,w.now⟩ := by
          rw [← hr,hroom]
          simp [World.createCall]
        exact Option.some.inj hrow
      subst hh
      refine ⟨⟨a,b,e.logId⟩,rfl,by rw [hk.drawn]; simp [World.createCall],?_,hne,hid,⟨_,hlog,rfl⟩,?_,?_⟩
      · intro u hu
        rcases List.mem_pair.mp hu with rfl | rfl
        · simpa only [World.isUser,htouch.users] using hua
        · simpa only [World.isUser,htouch.users] using hub
      · intro q hq he
        have hmem : q ∈ w.participants := by
          rw [ht.participants] at hq
          obtain ⟨_,_,_,rfl⟩ := World.createCallLog_eq hv
          exact hq
        have hsome := ho.participants q hmem
        simp [he,hnew] at hsome
      · exact htouch.now ▸ Nat.le_refl _
    · have hr' : w.room c = some h := by
        rw [← hr,hroom]
        simp [World.createCall,hc]
      obtain ⟨p,hl⟩ := ho.live c h hr'
      exact ⟨p,hl.touched htouch (hother (hl.parties? hr')) hdrawn⟩
  · intro u c hu
    rw [hk.userCall,World.userCall_createCall] at hu
    by_cases hin : u ∈ [a,b]
    · rw [if_pos hin] at hu
      obtain rfl := Option.some.inj hu
      exact ⟨⟨a,b,e.logId⟩,by rw [hparties,if_pos rfl],hin⟩
    · rw [if_neg hin] at hu
      obtain ⟨p,hp,hup⟩ := ho.keys u c hu
      obtain ⟨h,_,hl⟩ := ho.liveCall hp
      have hc : c ≠ e.callId := fun he => hfresh (he ▸ hl.drawn)
      exact ⟨p,by rw [hparties,if_neg hc]; exact hp,hup⟩
  · exact hk.oneCall.mpr ((World.oneCall_createCall ho.oneCall).mpr hfree)
  · have hlogs : ∀ {c p}, w'.parties? c = some p → (c = e.callId ↔ p.callLogId = e.logId) := by
      intro c p hp
      constructor
      · rintro rfl
        rw [hparties,if_pos rfl] at hp
        obtain rfl := Option.some.inj hp
        rfl
      · intro he
        by_contra hc
        exact hother (hold hp hc) he
    intro c c' p p' hp hp' he
    by_cases hc : c = e.callId
    · have hp'id := he ▸ (hlogs hp).mp hc
      exact hc.trans ((hlogs hp').mpr hp'id).symm
    · have hc' : c' ≠ e.callId := fun h' => hc ((hlogs hp).mpr (he.trans ((hlogs hp').mp h')))
      exact ho.logs c c' p p' (hold hp hc) (hold hp' hc') he

/-- A ringing call is connected. -/
theorem World.Orderly.accepted (ho : w.Orderly) (hr : w.room c = some h) (hl : w.LiveCall c h p)
    (hk : (w.acceptCall (World.asActive c h p)).SameKeys w')
    (ht : (w.updateCallLogAccepted p.callLogId).SameTables w') : w'.Orderly := by
  have htouch : w.Touches w' p.callLogId := World.updateCallLogAccepted_touches.trans ht.touches
  have hlog := World.log?_accepted ht
  have hparties : ∀ c, w'.parties? c = w.parties? c := by
    intro c
    rw [hk.parties?]
    exact World.parties?_acceptCall
  have hdrawn : w'.drawn = w.drawn := hk.drawn
  obtain ⟨l,hsome,_⟩ := hl.log
  refine ⟨htouch.users ▸ ho.users,ho.touched_participants htouch (by simp [hlog,hsome]),?_,?_,?_,?_⟩
  · intro c' h' hr'
    have hroom : w'.room c' = (w.acceptCall (World.asActive c h p)).room c' := by rw [hk.room]
    by_cases hc : c' = c
    · subst hc
      have hh : h' = ⟨some p,.connected,w.now⟩ := by
        have hrow : some h' = some ⟨some p,.connected,w.now⟩ := by
          rw [← hr',hroom]
          simp [World.acceptCall,World.asActive,hr,hl.parties]
        exact Option.some.inj hrow
      subst hh
      refine ⟨p,rfl,hdrawn ▸ hl.drawn,?_,hl.distinct,hl.named,⟨_,by rw [hlog,hsome]; rfl,rfl⟩,?_,?_⟩
      · simpa only [World.isUser,htouch.users] using hl.users
      · rw [ht.participants]
        exact hl.fresh
      · exact htouch.now ▸ Nat.le_refl _
    · have hrow : w.room c' = some h' := by
        rw [← hr',hroom]
        simp [World.acceptCall,World.asActive,hc]
      obtain ⟨p',hl'⟩ := ho.live c' h' hrow
      have hne : p'.callLogId ≠ p.callLogId :=
        fun he => hc (ho.logs _ _ _ _ (hl'.parties? hrow) (hl.parties? hr) he)
      exact ⟨p',hl'.touched htouch hne fun c hc => hdrawn ▸ hc⟩
  · intro u c' hu
    rw [hk.userCall] at hu
    obtain ⟨p',hp',hin⟩ := ho.keys u c' hu
    exact ⟨p',by rw [hparties]; exact hp',hin⟩
  · exact hk.oneCall.mpr (World.oneCall_acceptCall ho.oneCall)
  · simpa only [hparties] using ho.logs

/-- The keys of a live call, deleted. -/
theorem World.Orderly.deletedKeys (ho : w.Orderly) (hr : w.room c = some h) (hl : w.LiveCall c h p) :
    deletedKeys (w.room c) = p.users := by
  have hne : ∀ u ∈ p.users, u ≠ "" := fun u hu => ho.ne_empty (hl.users u hu)
  simp only [Calls.deletedKeys,hr,Option.bind_some,hl.parties]
  exact List.filter_eq_self.mpr fun u hu => by simpa using hne u hu

/-- The room of a call is gone with its keys, and at most its log was touched. -/
theorem World.Orderly.closed (ho : w.Orderly)
    (hparties : ∀ c', w'.parties? c' = if c' = c then none else w.parties? c')
    (hroom : ∀ c', w'.room c' = if c' = c then none else w.room c')
    (hkeys : ∀ u c', w'.userCall u = some c' → w.userCall u = some c' ∧ c' ≠ c)
    (hdrawn : w'.drawn = w.drawn) (hone : w'.OneCall) (ht : w.Touches w' id)
    (hparticipants : ∀ q ∈ w'.participants, (w'.log? q.callLogId).isSome)
    (hlog : ∀ c' p', c' ≠ c → w.parties? c' = some p' → p'.callLogId ≠ id) : w'.Orderly := by
  have hold : ∀ {c' p'}, w'.parties? c' = some p' → c' ≠ c ∧ w.parties? c' = some p' := by
    intro c' p' hp
    rw [hparties] at hp
    by_cases hc : c' = c
    · simp [hc] at hp
    · exact ⟨hc,by simpa [hc] using hp⟩
  refine ⟨ht.users ▸ ho.users,hparticipants,?_,?_,hone,?_⟩
  · intro c' h' hr'
    rw [hroom] at hr'
    by_cases hc : c' = c
    · simp [hc] at hr'
    · rw [if_neg hc] at hr'
      obtain ⟨p',hl'⟩ := ho.live c' h' hr'
      exact ⟨p',hl'.touched ht (hlog c' p' hc (hl'.parties? hr')) fun c hc => hdrawn ▸ hc⟩
  · intro u c' hu
    obtain ⟨hu,hc⟩ := hkeys u c' hu
    obtain ⟨p',hp',hin⟩ := ho.keys u c' hu
    exact ⟨p',by rw [hparties,if_neg hc]; exact hp',hin⟩
  · intro c₁ c₂ p₁ p₂ hp₁ hp₂
    exact ho.logs c₁ c₂ p₁ p₂ (hold hp₁).2 (hold hp₂).2

theorem World.Orderly.cleaned (ho : w.Orderly) (hr : w.room c = some h) (hl : w.LiveCall c h p)
    (hk : (w.cleanupCall c).SameKeys w') (ht : w.Touches w' p.callLogId)
    (hid : (w'.log? p.callLogId).isSome) : w'.Orderly := by
  have hp := hl.parties? hr
  have hdeleted := ho.deletedKeys hr hl
  refine ho.closed (c := c) ?_ ?_ ?_ (hk.drawn.trans World.drawn_cleanup) ?_ ht
    (ho.touched_participants ht hid) ?_
  · intro c'
    rw [hk.parties?]
    exact World.parties?_cleanup
  · intro c'
    rw [hk.room]
    simp only [World.cleanupCall,World.room_cleanup,World.delRoom,Function.update_apply]
  · intro u c' hu
    rw [hk.userCall,World.cleanupCall,World.userCall_cleanup,hdeleted] at hu
    by_cases hin : u ∈ p.users
    · simp [hin] at hu
    · rw [if_neg hin] at hu
      refine ⟨hu,?_⟩
      rintro rfl
      obtain ⟨p',hp',hin'⟩ := ho.keys u c' hu
      obtain rfl := Option.some.inj (hp'.symm.trans hp)
      exact hin hin'
  · refine hk.oneCall.mpr ((World.oneCall_cleanup ho.oneCall).mpr ?_)
    rintro u hu ⟨c',p',hne,hp',hu'⟩
    rw [hdeleted] at hu
    exact ho.oneCall.disjoint c' c p' p hne hp' hp u hu' hu
  · intro c' p' hne hp' he
    exact hne (ho.logs c' c p' p hp' hp he)

theorem World.Orderly.expired (ho : w.Orderly) (c : String) : (w.expireCall c).Orderly := by
  have ht : w.SameTables (w.expireCall c) := ⟨rfl,rfl,rfl,rfl⟩
  have htouch : w.Touches (w.expireCall c) "" := ht.touches
  refine ho.closed (c := c) (fun _ => World.parties?_expireCall) ?_ ?_ rfl
    (World.oneCall_expireCall ho.oneCall) htouch ho.participants ?_
  · intro c'
    simp only [World.expireCall,World.delRoom,Function.update_apply]
  · intro u c' hu
    simpa [World.expireCall,Option.filter_eq_some_iff] using hu
  · intro c' p' _ hp'
    obtain ⟨_,_,hl'⟩ := ho.liveCall hp'
    exact hl'.named

theorem World.Orderly.ticked (ho : w.Orderly) (ms : ℕ) : (w.tick ms).Orderly where
  users := ho.users
  participants := ho.participants
  live c h hr := by
    obtain ⟨p,hl⟩ := ho.live c h hr
    exact ⟨p,hl.parties,hl.drawn,hl.users,hl.distinct,hl.named,hl.log,hl.fresh,
      Nat.le_add_right_of_le hl.started⟩
  keys := ho.keys
  oneCall := ⟨ho.oneCall.disjoint,ho.oneCall.keys⟩
  logs := ho.logs

end

theorem Effect.orderly {e : Setting} {r : Request} {w w' : World} (he : Effect e w r w') (ho : w.Orderly)
    (hf : w.Fresh (.request e r)) : w'.Orderly := by
  cases he with
  | none hk ht => exact ho.congr hk ht
  | rang ha hb hne hv hk ht => exact ho.rang ha hb hne hv hf.1 hf.2 hk ht
  | accepted hr hl _ hk ht => exact ho.accepted hr hl hk ht
  | rejected hr hl _ hk ht =>
    refine ho.cleaned hr hl hk (World.updateCallLogRejected_touches.trans ht.touches) ?_
    rw [World.log?_rejected ht]
    simpa using hl.logged
  | dropped hr hl _ hk ht =>
    refine ho.cleaned hr hl hk ht.touches ?_
    simpa only [World.log?,ht.callLogs] using hl.logged
  | finished hr hl _ hk ht =>
    refine ho.cleaned hr hl hk (World.recorded_touches.trans ht.touches) ?_
    rw [World.log?_recorded ht]
    simpa using hl.logged

theorem World.Orderly.next {w : World} {h : Happening} (ho : w.Orderly) (hf : w.Fresh h) : (w.next h).Orderly := by
  cases h with
  | request e r => exact (handle_effect ho e r).orderly ho hf
  | expire c => exact ho.expired c
  | presence u b => exact ho.congr ⟨rfl,rfl,rfl⟩ ⟨rfl,rfl,rfl,rfl⟩
  | tick ms => exact ho.ticked ms

/-! ### One event -/

/-- What an event does to a room. -/
inductive RoomStep (w w' : World) (c : String) : Prop
  | same : w'.room c = w.room c → (c ∈ w'.drawn ↔ c ∈ w.drawn) → RoomStep w w' c
  | rang {h'} : w.room c = none → c ∉ w.drawn → w'.room c = some h' → h'.status = .ringing → RoomStep w w' c
  | connected {h h'} : w.room c = some h → h.status = .ringing → w'.room c = some h' →
      h'.status = .connected → h'.startedAt = w.now → h'.parties = h.parties → RoomStep w w' c
  | ended {h} : w.room c = some h → w'.room c = none → c ∈ w'.drawn → RoomStep w w' c

section

variable {w w' : World} {c : String} {h : Hash} {p : Parties}

theorem World.Orderly.phase_of_room (ho : w.Orderly) (hr : w.room c = some h) :
    w.phase c = match h.status with
      | .ringing => .ringing
      | .connected => .connected h.startedAt := by
  obtain ⟨p,hl⟩ := ho.live c h hr
  simp only [World.phase,ho.toActiveCall hr hl]
  rfl

theorem World.phase_of_none (hr : w.room c = none) :
    w.phase c = if c ∈ w.drawn then .ended else .absent := by
  simp [World.phase,hr,toActiveCall]

theorem RoomStep.moves (hs : RoomStep w w' c) (ho : w.Orderly) (ho' : w'.Orderly) :
    Phase.Moves (w.phase c) (w'.phase c) := by
  cases hs with
  | same hroom hdrawn =>
    have hphase : w'.phase c = w.phase c := by simp only [World.phase,hroom,hdrawn]
    rw [hphase]
    exact .stay _
  | rang hnone hnew hr hs =>
    rw [World.phase_of_none hnone,if_neg hnew,ho'.phase_of_room hr,hs]
    exact .ring
  | connected hr hs hr' hs' =>
    rw [ho.phase_of_room hr,hs,ho'.phase_of_room hr',hs']
    exact .connect _
  | ended hr hnone hdrawn =>
    rw [ho.phase_of_room hr,World.phase_of_none hnone,if_pos hdrawn]
    rename_i h
    cases h.status with
    | ringing => exact .unanswered
    | connected => exact .finish _

/-- A cleanup ends its call and leaves the other rooms. -/
theorem roomStep_of_cleanup {c₀ : String} (hr : w.room c₀ = some h) (hl : w.LiveCall c₀ h p)
    (hk : (w.cleanupCall c₀).SameKeys w') : RoomStep w w' c := by
  have hdrawn : w'.drawn = w.drawn := hk.drawn.trans World.drawn_cleanup
  have hroom : w'.room c = if c = c₀ then none else w.room c := by
    rw [hk.room]
    simp only [World.cleanupCall,World.room_cleanup,World.delRoom,Function.update_apply]
  by_cases hc : c = c₀
  · subst hc
    exact .ended hr (by rw [hroom,if_pos rfl]) (hdrawn ▸ hl.drawn)
  · exact .same (by rw [hroom,if_neg hc]) (by rw [hdrawn])

theorem Effect.roomStep {e : Setting} {r : Request} (he : Effect e w r w') (ho : w.Orderly)
    (hf : w.Fresh (.request e r)) (hcalm : w.Calm (.request e r)) : RoomStep w w' c := by
  cases he with
  | none hk ht => exact .same (by rw [hk.room]) (by rw [hk.drawn])
  | rang ha hb hne hv hk ht =>
    have hnew := hf.1
    by_cases hc : c = e.callId
    · subst hc
      refine .rang ?_ hnew (by rw [hk.room]; simp [World.createCall]; rfl) rfl
      cases hr : w.room e.callId with
      | none => rfl
      | some h =>
        obtain ⟨p,hl⟩ := ho.live _ h hr
        exact absurd hl.drawn hnew
    · refine .same (by rw [hk.room]; simp [World.createCall,hc]) ?_
      rw [hk.drawn]
      simp [World.createCall,hc]
  | accepted hr hl hans hk ht =>
    rename_i user c₀ h p
    have hdrawn : w'.drawn = w.drawn := hk.drawn
    by_cases hc : c = c₀
    · subst hc
      have hr' : w'.room c = some ⟨some p,.connected,w.now⟩ := by
        rw [hk.room]
        simp [World.acceptCall,World.asActive,hr,hl.parties]
      exact .connected hr (hcalm _ hans) hr' rfl rfl hl.parties.symm
    · refine .same ?_ (by rw [hdrawn])
      rw [hk.room]
      simp [World.acceptCall,World.asActive,hc]
  | rejected hr hl _ hk ht => exact roomStep_of_cleanup hr hl hk
  | dropped hr hl _ hk ht => exact roomStep_of_cleanup hr hl hk
  | finished hr hl _ hk ht => exact roomStep_of_cleanup hr hl hk

theorem World.Orderly.roomStep {hp : Happening} (ho : w.Orderly) (hf : w.Fresh hp) (hcalm : w.Calm hp)
    (c : String) : RoomStep w (w.next hp) c := by
  cases hp with
  | request e r => exact (handle_effect ho e r).roomStep ho hf hcalm
  | presence u b => exact .same rfl Iff.rfl
  | tick ms => exact .same rfl Iff.rfl
  | expire c₀ =>
    have hroom : (w.next (.expire c₀)).room c = if c = c₀ then none else w.room c := by
      simp only [World.next,World.expireCall,World.delRoom,Function.update_apply]
    have hdrawn : (w.next (.expire c₀)).drawn = w.drawn := rfl
    by_cases hc : c = c₀
    · cases hr : w.room c with
      | none => exact .same (by rw [hroom,if_pos hc,hr]) (by rw [hdrawn])
      | some h =>
        obtain ⟨p,hl⟩ := ho.live c h hr
        exact .ended hr (by rw [hroom,if_pos hc]) (hdrawn ▸ hl.drawn)
    · exact .same (by rw [hroom,if_neg hc]) (by rw [hdrawn])

/-- The parties of a live room were there before, or the call and its log are new. -/
theorem World.Orderly.parties_next {hp : Happening} (ho : w.Orderly)
    (hparties : (w.next hp).parties? c = some p) : w.parties? c = some p ∨ w.log? p.callLogId = none := by
  cases hp with
  | presence u b => exact .inl hparties
  | tick ms => exact .inl hparties
  | expire c₀ =>
    have hold : (w.expireCall c₀).parties? c = some p := hparties
    rw [World.parties?_expireCall] at hold
    by_cases hc : c = c₀
    · simp [hc] at hold
    · exact .inl (by simpa [hc] using hold)
  | request e r =>
    have hcleanup : ∀ {c₀ : String}, (w.cleanupCall c₀).SameKeys (w.next (.request e r)) →
        w.parties? c = some p := by
      intro c₀ hk
      rw [hk.parties?,World.cleanupCall,World.parties?_cleanup] at hparties
      by_cases hc : c = c₀
      · simp [hc] at hparties
      · simpa [hc] using hparties
    have heffect : Effect e w r (w.next (.request e r)) := handle_effect ho e r
    cases heffect with
    | none hk ht => exact .inl (by rwa [← hk.parties?])
    | rang ha hb hne hv hk ht =>
      rw [hk.parties?,World.parties?_createCall] at hparties
      by_cases hc : c = e.callId
      · rw [if_pos hc] at hparties
        obtain rfl := Option.some.inj hparties
        exact .inr (World.createCallLog_eq hv).2.2.1
      · rw [if_neg hc] at hparties
        exact .inl hparties
    | accepted hr hl _ hk ht =>
      rw [hk.parties?,World.parties?_acceptCall] at hparties
      exact .inl hparties
    | rejected hr hl _ hk ht => exact .inl (hcleanup hk)
    | dropped hr hl _ hk ht => exact .inl (hcleanup hk)
    | finished hr hl _ hk ht => exact .inl (hcleanup hk)

/-- A log whose call has ended. -/
structure World.Settled (w : World) (id : String) : Prop where
  logged : (w.log? id).isSome
  ended : ∀ c p, w.parties? c = some p → p.callLogId ≠ id

/-- Nothing happens to it any more. -/
theorem World.Settled.next {id : String} (hs : w.Settled id) (ho : w.Orderly) (hp : Happening) :
    (w.next hp).Settled id ∧ (w.next hp).log? id = w.log? id ∧
      (w.next hp).participantsOf id = w.participantsOf id := by
  have hkept : (w.next hp).log? id = w.log? id ∧ (w.next hp).participantsOf id = w.participantsOf id := by
    have htouch : ∀ {l}, w.Touches (w.next hp) l → l ≠ id →
        (w.next hp).log? id = w.log? id ∧ (w.next hp).participantsOf id = w.participantsOf id :=
      fun ht hl => ⟨ht.log? id (Ne.symm hl),ht.participantsOf id (Ne.symm hl)⟩
    cases hp with
    | presence u b => exact ⟨rfl,rfl⟩
    | tick ms => exact ⟨rfl,rfl⟩
    | expire c₀ => exact ⟨rfl,rfl⟩
    | request e r =>
      have heffect : Effect e w r (w.next (.request e r)) := handle_effect ho e r
      cases heffect with
      | none hk ht => exact ⟨by simp only [World.log?,ht.callLogs],by simp only [World.participantsOf,ht.participants]⟩
      | rang ha hb hne hv hk ht =>
        refine htouch ((World.createCallLog_touches hv).trans ht.touches) ?_
        rintro rfl
        have hnone := (World.createCallLog_eq hv).2.2.1
        have hsome := hs.logged
        simp [hnone] at hsome
      | accepted hr hl _ hk ht =>
        exact htouch (World.updateCallLogAccepted_touches.trans ht.touches) (hs.ended _ _ (hl.parties? hr))
      | rejected hr hl _ hk ht =>
        exact htouch (World.updateCallLogRejected_touches.trans ht.touches) (hs.ended _ _ (hl.parties? hr))
      | dropped hr hl _ hk ht => exact htouch ht.touches (hs.ended _ _ (hl.parties? hr))
      | finished hr hl _ hk ht =>
        exact htouch (World.recorded_touches.trans ht.touches) (hs.ended _ _ (hl.parties? hr))
  refine ⟨⟨by rw [hkept.1]; exact hs.logged,fun c p hparties => ?_⟩,hkept⟩
  rcases ho.parties_next hparties with hold | hnew
  · exact hs.ended c p hold
  · rintro rfl
    have hsome := hs.logged
    simp [hnew] at hsome

end

/-! ### Runs -/

/-- The worlds that admitted events and what happens between them lead to. -/
def Reaches (ok : World → Happening → Prop) : World → World → Prop :=
  Relation.ReflTransGen fun w w' => ∃ hp, ok w hp ∧ w' = w.next hp

def World.Careful (w : World) (hp : Happening) : Prop := w.Fresh hp ∧ w.Calm hp

def World.status? (w : World) (id : String) : Option LogStatus := (w.log? id).map (·.status)

/-- The call was accepted at the first time and ended at the second. -/
structure World.Recorded (w : World) (p : Parties) (accepted ended : ℕ) : Prop where
  log : ∃ l, w.log? p.callLogId = some l ∧ l.status = .completed ∧ l.endedAt = some ended ∧
    l.duration = some (((ended : ℤ)-accepted)/1000)
  nonneg : 0 ≤ ((ended : ℤ)-accepted)/1000
  participants : (w.participantsOf p.callLogId).map (fun q => (q.userId,q.duration)) =
    [(p.initiatorId,((ended : ℤ)-accepted)/1000),(p.targetId,((ended : ℤ)-accepted)/1000)]
  distinct : p.initiatorId ≠ p.targetId

/-- A connected call. -/
structure World.Connected (w : World) (c : String) (t : ℕ) (p : Parties) : Prop where
  phase : w.phase c = .connected t
  parties : w.parties? c = some p

/-- A call that was connected and has ended. -/
structure World.Over (w : World) (c : String) (p : Parties) : Prop where
  phase : w.phase c = .ended
  settled : w.Settled p.callLogId
  completed : w.status? p.callLogId = some .completed

section

variable {w w' w₀ : World} {c : String} {h : Hash} {p : Parties} {t : ℕ} {hp : Happening}

theorem Reaches.orderly (hr : Reaches World.Careful w w') (ho : w.Orderly) : w'.Orderly := by
  induction hr with
  | refl => exact ho
  | tail _ hstep ih =>
    obtain ⟨hp,hok,rfl⟩ := hstep
    exact ih.next hok.1

theorem World.Orderly.connected (ho : w.Orderly) (hc : w.Connected c t p) :
    ∃ h, w.room c = some h ∧ h.status = .connected ∧ h.startedAt = t ∧ w.LiveCall c h p := by
  obtain ⟨h,hr,hl⟩ := ho.liveCall hc.parties
  have hphase := hc.phase
  rw [ho.phase_of_room hr] at hphase
  cases hs : h.status with
  | ringing => simp [hs] at hphase
  | connected => exact ⟨h,hr,hs,by simpa [hs] using hphase,hl⟩

/-- An event that ends a connected call records it, unless its keys expire. -/
theorem World.Orderly.end_recorded (ho : w.Orderly) (hcalm : w.Calm hp) (hr : w.room c = some h)
    (hs : h.status = .connected) (hl : w.LiveCall c h p) (hnone : (w.next hp).room c = none) :
    (w.recorded (World.asActive c h p) p.callLogId).SameTables (w.next hp) ∨
      hp = .expire c ∧ w.SameTables (w.next hp) := by
  have hsame : (w.next hp).room c ≠ w.room c := by simp [hnone,hr]
  have hcleanup : ∀ {c₀ : String}, (w.cleanupCall c₀).SameKeys (w.next hp) → c₀ = c := by
    intro c₀ hk
    by_contra hne
    apply hsame
    rw [hk.room]
    simp only [World.cleanupCall,World.room_cleanup,World.delRoom]
    rw [Function.update_of_ne (Ne.symm hne)]
  have hdetermined : ∀ {h' p'}, w.room c = some h' → w.LiveCall c h' p' → h' = h ∧ p' = p := by
    intro h' p' hr' hl'
    obtain rfl := Option.some.inj (hr'.symm.trans hr)
    exact ⟨rfl,Option.some.inj (hl'.parties.symm.trans hl.parties)⟩
  cases hp with
  | presence u b => exact absurd rfl hsame
  | tick ms => exact absurd rfl hsame
  | expire c₀ =>
    refine .inr ⟨?_,⟨rfl,rfl,rfl,rfl⟩⟩
    by_contra hne
    have hc : c ≠ c₀ := fun he => hne (by rw [he])
    apply hsame
    simp [World.next,World.expireCall,World.delRoom,hc]
  | request e r =>
    have heffect : Effect e w r (w.next (.request e r)) := handle_effect ho e r
    cases heffect with
    | none hk ht => exact absurd (by rw [hk.room]) hsame
    | rang ha hb hne hv hk ht =>
      rw [hk.room] at hnone
      by_cases hc : c = e.callId
      · simp [World.createCall,hc] at hnone
      · simp [World.createCall,hc,hr] at hnone
    | accepted hr' hl' hans hk ht =>
      rename_i user c₀ h' p'
      rw [hk.room] at hnone
      by_cases hc : c = c₀
      · simp [World.acceptCall,World.asActive,hc] at hnone
      · simp [World.acceptCall,World.asActive,hc,hr] at hnone
    | rejected hr' hl' hans hk ht =>
      obtain rfl := hcleanup hk
      obtain ⟨rfl,rfl⟩ := hdetermined hr' hl'
      have hringing := hcalm _ hans
      simp [World.asActive,hs] at hringing
    | dropped hr' hl' hringing hk ht =>
      obtain rfl := hcleanup hk
      obtain ⟨rfl,rfl⟩ := hdetermined hr' hl'
      simp [hs] at hringing
    | finished hr' hl' _ hk ht =>
      obtain rfl := hcleanup hk
      obtain ⟨rfl,rfl⟩ := hdetermined hr' hl'
      exact .inl ht

theorem World.LiveCall.status (hl : w.LiveCall c h p) (hs : h.status = .connected) :
    w.status? p.callLogId = some .completed := by
  obtain ⟨l,hlog,hstatus⟩ := hl.log
  simp [World.status?,hlog,hstatus,hs]

theorem World.Connected.next (hc : w.Connected c t p) (ho : w.Orderly) (hok : w.Careful hp) :
    (w.next hp).Connected c t p ∨ (w.next hp).Over c p := by
  obtain ⟨h,hr,hs,ht,hl⟩ := ho.connected hc
  have ho' := ho.next hok.1
  cases ho.roomStep hok.1 hok.2 c with
  | same hroom _ =>
    refine .inl ⟨?_,by simp [World.parties?,hroom,hr,hl.parties]⟩
    rw [ho'.phase_of_room (hroom.trans hr),hs,← ht]
  | rang hnone => simp [hr] at hnone
  | connected hr' hs' =>
    obtain rfl := Option.some.inj (hr'.symm.trans hr)
    simp [hs] at hs'
  | ended _ hnone hdrawn =>
    have hlogged : (w.next hp).status? p.callLogId = some .completed := by
      rcases ho.end_recorded hok.2 hr hs hl hnone with ht | ⟨_,ht⟩
      · obtain ⟨l,hlog,_⟩ := hl.log
        simp [World.status?,World.log?_recorded ht,hlog]
      · have hsame := hl.status hs
        simpa only [World.status?,World.log?,ht.callLogs] using hsame
    refine .inr ⟨by rw [World.phase_of_none hnone,if_pos hdrawn],⟨?_,?_⟩,hlogged⟩
    · unfold World.status? at hlogged
      cases hlog : (w.next hp).log? p.callLogId with
      | none => simp [hlog] at hlogged
      | some l => rfl
    · intro c' p' hp' he
      rcases ho.parties_next hp' with hold | hnew
      · obtain rfl := ho.logs c' c p' p hold (hl.parties? hr) he
        simp [World.parties?,hnone] at hp'
      · have hsome := hl.logged
        rw [← he,hnew] at hsome
        simp at hsome

theorem World.Over.next (hc : w.Over c p) (ho : w.Orderly) (hok : w.Careful hp) : (w.next hp).Over c p := by
  have hsettled := hc.settled.next ho hp
  refine ⟨?_,hsettled.1,by simpa only [World.status?,hsettled.2.1] using hc.completed⟩
  have hmoves := (ho.roomStep hok.1 hok.2 c).moves ho (ho.next hok.1)
  rw [hc.phase] at hmoves
  generalize (w.next hp).phase c = after at hmoves ⊢
  cases hmoves
  rfl

/-- A connected call stays connected since the same time, until it is over. -/
theorem Reaches.connected (hr : Reaches World.Careful w w') (ho : w.Orderly) (hc : w.Connected c t p) :
    w'.Connected c t p ∨ w'.Over c p := by
  induction hr with
  | refl => exact .inl hc
  | tail hab hstep ih =>
    obtain ⟨hp,hok,rfl⟩ := hstep
    have hb := Reaches.orderly hab ho
    rcases ih with hheld | hover
    · exact hheld.next hb hok
    · exact .inr (hover.next hb hok)

/-- A settled log stays as it is. -/
theorem Reaches.settled {id : String} (hr : Reaches World.Careful w w') (ho : w.Orderly) (hs : w.Settled id) :
    w'.Settled id ∧ w'.log? id = w.log? id ∧ w'.participantsOf id = w.participantsOf id := by
  induction hr with
  | refl => exact ⟨hs,rfl,rfl⟩
  | tail hab hstep ih =>
    obtain ⟨hp,_,rfl⟩ := hstep
    obtain ⟨hs',hlog,hparticipants⟩ := ih
    obtain ⟨hs'',hlog',hparticipants'⟩ := hs'.next (Reaches.orderly hab ho) hp
    exact ⟨hs'',hlog'.trans hlog,hparticipants'.trans hparticipants⟩

/-- A log becomes rejected only by a reject of its ringing call. -/
theorem World.Orderly.rejected_by (ho : w.Orderly) (hok : w.Careful hp) {id : String}
    (hrejected : (w.next hp).status? id = some .rejected) :
    w.status? id = some .rejected ∨ ∃ e user c p, hp = .request e (.reject user c) ∧
      w.phase c = .ringing ∧ w.parties? c = some p ∧ p.callLogId = id := by
  have hkept : ∀ {l}, w.Touches (w.next hp) l → id ≠ l → w.status? id = some .rejected := by
    intro l ht hne
    simpa only [World.status?,ht.log? id hne] using hrejected
  cases hp with
  | presence u b => exact .inl hrejected
  | tick ms => exact .inl hrejected
  | expire c₀ => exact .inl hrejected
  | request e r =>
    have heffect : Effect e w r (w.next (.request e r)) := handle_effect ho e r
    cases heffect with
    | none hk ht => exact .inl (by simpa only [World.status?,World.log?,ht.callLogs] using hrejected)
    | rang ha hb hne hv hk ht =>
      by_cases hid : id = e.logId
      · subst hid
        have hlog := World.createCallLog_log? hv
        simp only [World.log?] at hlog
        simp [World.status?,World.log?,ht.callLogs,hlog] at hrejected
      · exact .inl (hkept ((World.createCallLog_touches hv).trans ht.touches) hid)
    | accepted hr hl hans hk ht =>
      rename_i user c h p
      by_cases hid : id = p.callLogId
      · subst hid
        simp only [World.status?,World.log?_accepted ht,Option.map_map] at hrejected
        obtain ⟨l,_,hl⟩ := Option.map_eq_some_iff.mp hrejected
        simp at hl
      · exact .inl (hkept (World.updateCallLogAccepted_touches.trans ht.touches) hid)
    | rejected hr hl hans hk ht =>
      rename_i user c h p
      by_cases hid : id = p.callLogId
      · have hringing : h.status = .ringing := hok.2 _ hans
        refine .inr ⟨e,user,c,p,rfl,?_,hl.parties? hr,hid.symm⟩
        rw [ho.phase_of_room hr,hringing]
      · exact .inl (hkept (World.updateCallLogRejected_touches.trans ht.touches) hid)
    | dropped hr hl _ hk ht => exact .inl (by simpa only [World.status?,World.log?,ht.callLogs] using hrejected)
    | finished hr hl hs hk ht =>
      rename_i c h p
      by_cases hid : id = p.callLogId
      · subst hid
        simp only [World.status?,World.log?_recorded ht,Option.map_map] at hrejected
        obtain ⟨l,_,hl⟩ := Option.map_eq_some_iff.mp hrejected
        simp at hl
      · exact .inl (hkept (World.recorded_touches.trans ht.touches) hid)

/-- A call is connected by an accept of its target, at the time of that event. -/
theorem World.Orderly.connected_by (ho : w.Orderly) (hok : w.Careful hp) (hp' : w.parties? c = some p)
    (hringing : w.phase c = .ringing) (hconnected : (w.next hp).phase c = .connected t) :
    t = w.now ∧ (w.next hp).Connected c t p := by
  obtain ⟨h,hr,hl⟩ := ho.liveCall hp'
  have ho' := ho.next hok.1
  rw [ho.phase_of_room hr] at hringing
  cases ho.roomStep hok.1 hok.2 c with
  | same hroom _ =>
    rw [ho'.phase_of_room (hroom.trans hr)] at hconnected
    rw [hringing] at hconnected
    simp at hconnected
  | rang hnone => simp [hr] at hnone
  | ended _ hnone =>
    rw [World.phase_of_none hnone] at hconnected
    split at hconnected <;> simp at hconnected
  | connected hr' _ hroom hs ht hparties =>
    obtain rfl := Option.some.inj (hr'.symm.trans hr)
    have hphase := hconnected
    rw [ho'.phase_of_room hroom,hs,ht] at hphase
    refine ⟨by simpa using hphase.symm,hconnected,?_⟩
    simp [World.parties?,hroom,hparties,hl.parties]

theorem World.LiveCall.recorded (hl : w.LiveCall c h p)
    (ht : (w.recorded (World.asActive c h p) p.callLogId).SameTables w') : w'.Recorded p h.startedAt w.now := by
  have hduration : callDuration h.startedAt w.now = ((w.now : ℤ)-h.startedAt)/1000 := by
    have hle := hl.started
    have hnonneg : 0 ≤ ((w.now : ℤ)-h.startedAt)/1000 := Int.ediv_nonneg (by omega) (by decide)
    exact max_eq_right hnonneg
  have hle := hl.started
  refine ⟨?_,Int.ediv_nonneg (by omega) (by decide),?_,hl.distinct⟩
  · obtain ⟨l,hlog,_⟩ := hl.log
    rw [World.log?_recorded ht,hlog]
    exact ⟨_,rfl,rfl,rfl,by rw [← hduration]; rfl⟩
  · have hnone : w.participants.filter (·.callLogId = p.callLogId) = [] :=
      List.filter_eq_nil_iff.mpr fun q hq => by simpa using hl.fresh q hq
    have hinsert : ∀ (v : World) (q : Participant), (∀ k ∈ v.participants, ¬(k.callLogId = q.callLogId ∧
        k.userId = q.userId)) → (v.insertParticipant q).participants = v.participants++[q] := by
      intro v q hq
      unfold World.insertParticipant
      rw [if_neg (by simpa using hq)]
    have hfresh : ∀ k ∈ w.participants, k.callLogId ≠ p.callLogId := hl.fresh
    have hfirst := hinsert (w.closeCallLog p.callLogId h.startedAt w.now)
      (participantRow (World.asActive c h p) p.callLogId w.now
        (w.usernames [p.initiatorId,p.targetId]) p.initiatorId) fun k hk hboth => hfresh k hk hboth.1
    have hsecond := hinsert _ (participantRow (World.asActive c h p) p.callLogId w.now
        (w.usernames [p.initiatorId,p.targetId]) p.targetId) (by
      rw [hfirst]
      intro k hk hboth
      rcases List.mem_append.mp hk with hold | hnew
      · exact hfresh k hold hboth.1
      · obtain rfl := List.mem_singleton.mp hnew
        exact hl.distinct hboth.2)
    have hparticipants : w'.participants = (w.participants++[participantRow (World.asActive c h p)
        p.callLogId w.now (w.usernames [p.initiatorId,p.targetId]) p.initiatorId])++
          [participantRow (World.asActive c h p) p.callLogId w.now
            (w.usernames [p.initiatorId,p.targetId]) p.targetId] := by
      rw [ht.participants]
      refine hsecond.trans ?_
      rw [hfirst]
      rfl
    rw [World.participantsOf,hparticipants,List.filter_append,List.filter_append,hnone]
    simp [participantRow,World.asActive,hduration]

/-- From the accept to the event that ends the call, and on. -/
theorem World.Connected.recorded {e : Setting} {r : Request} {w₂ w₄ : World} (hc : w.Connected c t p)
    (ho : w.Orderly) (h₂ : Reaches World.Careful w w₂) (hok : w₂.Careful (.request e r))
    (hbefore : w₂.phase c ≠ .ended) (hended : (w₂.next (.request e r)).phase c = .ended)
    (h₄ : Reaches World.Careful (w₂.next (.request e r)) w₄) : w₄.Recorded p t w₂.now := by
  have ho₂ := Reaches.orderly h₂ ho
  have hheld : w₂.Connected c t p := (Reaches.connected h₂ ho hc).resolve_right fun h => hbefore h.phase
  obtain ⟨h,hr,hs,ht,hl⟩ := ho₂.connected hheld
  have hover : (w₂.next (.request e r)).Over c p :=
    (hheld.next ho₂ hok).resolve_left fun h => by simp [h.phase] at hended
  have hnone : (w₂.next (.request e r)).room c = none := by
    cases hr' : (w₂.next (.request e r)).room c with
    | none => rfl
    | some h' =>
      rw [(ho₂.next hok.1).phase_of_room hr'] at hended
      cases hs' : h'.status <;> simp [hs'] at hended
  have htables : (w₂.recorded (World.asActive c h p) p.callLogId).SameTables (w₂.next (.request e r)) := by
    rcases ho₂.end_recorded hok.2 hr hs hl hnone with htables | ⟨hexpire,_⟩
    · exact htables
    · simp at hexpire
  have hrecorded := hl.recorded htables
  obtain ⟨_,hlog,hparticipants⟩ := Reaches.settled h₄ (ho₂.next hok.1) hover.settled
  rw [ht] at hrecorded
  exact ⟨by simpa only [hlog] using hrecorded.log,hrecorded.nonneg,
    by simpa only [hparticipants] using hrecorded.participants,hrecorded.distinct⟩

end

/-- In every run in which only ringing calls are accepted or rejected, a call rings, may be
connected and ends; from its first accept on it keeps its start and its log is completed; a log
is rejected only by a reject of the ringing call; and the event that ends a connected call
records its duration for both users. -/
theorem call_lifecycle (w₀ w : World) (h₀ : Opened w₀) (hr : Reaches World.Careful w₀ w) :
    (∀ c hp, w.Careful hp → Phase.Moves (w.phase c) ((w.next hp).phase c)) ∧
    (∀ c t p w', w.phase c = .connected t → w.parties? c = some p → Reaches World.Careful w w' →
      (w'.phase c = .connected t ∨ w'.phase c = .ended) ∧ w'.status? p.callLogId = some .completed) ∧
    (∀ id hp, w.Careful hp → (w.next hp).status? id = some .rejected → w.status? id = some .rejected ∨
      ∃ e user c p, hp = .request e (.reject user c) ∧ w.phase c = .ringing ∧
        w.parties? c = some p ∧ p.callLogId = id) ∧
    (∀ c p hp t, w.Careful hp → w.phase c = .ringing → w.parties? c = some p →
      (w.next hp).phase c = .connected t → t = w.now ∧
      ∀ w₂ e r w₄, Reaches World.Careful (w.next hp) w₂ → w₂.Careful (.request e r) →
        w₂.phase c ≠ .ended → (w₂.next (.request e r)).phase c = .ended →
        Reaches World.Careful (w₂.next (.request e r)) w₄ → w₄.Recorded p w.now w₂.now) := by
  have ho := Reaches.orderly hr h₀.orderly
  refine ⟨fun c hp hok => (ho.roomStep hok.1 hok.2 c).moves ho (ho.next hok.1),?_,
    fun id hp hok => ho.rejected_by hok,?_⟩
  · intro c t p w' hphase hparties hrun
    rcases Reaches.connected hrun ho ⟨hphase,hparties⟩ with hheld | hover
    · obtain ⟨h,_,hs,_,hl⟩ := (Reaches.orderly hrun ho).connected hheld
      exact ⟨.inl hheld.phase,hl.status hs⟩
    · exact ⟨.inr hover.phase,hover.completed⟩
  · intro c p hp t hok hringing hparties hconnected
    obtain ⟨rfl,hheld⟩ := ho.connected_by hok hparties hringing hconnected
    refine ⟨rfl,fun w₂ e r w₄ h₂ hok₂ hbefore hended h₄ => ?_⟩
    exact hheld.recorded (ho.next hok.1) h₂ hok₂ hbefore hended h₄

namespace World

def after (w : World) (hps : List Happening) : World := hps.foldl next w

/-- The check admits every step of the list. -/
def admits (check : World → Happening → Bool) (w : World) : List Happening → Bool
  | [] => true
  | hp::hps => check w hp && (w.next hp).admits check hps

def fresh (w : World) : Happening → Bool
  | .request e _ => e.callId ∉ w.drawn && e.logId ≠ ""
  | _ => true

def careful (w : World) (hp : Happening) : Bool := w.fresh hp && (w.answered? hp).all (·.status = .ringing)

end World

theorem Reaches.of_admits {ok : World → Happening → Prop} {check : World → Happening → Bool}
    (hcheck : ∀ w hp, check w hp = true → ok w hp) {w : World} {hps : List Happening}
    (h : w.admits check hps = true) : Reaches ok w (w.after hps) := by
  induction hps generalizing w with
  | nil => exact .refl
  | cons hp hps ih =>
    rw [World.admits,Bool.and_eq_true] at h
    exact .head ⟨hp,hcheck w hp h.1,rfl⟩ (ih h.2)

theorem fresh_sound (w : World) (hp : Happening) (h : w.fresh hp = true) : w.Fresh hp := by
  cases hp with
  | request e r => simpa [World.fresh,World.Fresh] using h
  | _ => trivial

theorem careful_sound (w : World) (hp : Happening) (h : w.careful hp = true) : w.Careful hp := by
  rw [World.careful,Bool.and_eq_true] at h
  refine ⟨fresh_sound w hp h.1,fun call hcall => ?_⟩
  simpa [hcall] using h.2

theorem quiet_opened : Opened quiet where
  toStarted := quiet_started
  users := by decide
  participants := by simp [quiet]

def firstId : String := firstCall.setting.callId

def rings : List Happening := [.request firstCall.setting (.invite ada bob.id),.tick 1000]

/-- The target accepts; only a dialling handler uses the ids of its setting. -/
def accepts : Happening := .request secondCall.setting (.accept bob firstId)

def rejects : Happening := .request secondCall.setting (.reject bob firstId)

def hangsUp : Happening := .request secondCall.setting (.hangup ada firstId)

def talking : World := ((quiet.after rings).next accepts).next (.tick 5500)

/-- A call of five and a half seconds. -/
theorem call_lifecycle_quiet :
    Opened quiet ∧ Reaches World.Careful quiet (quiet.after rings) ∧
      (talking.next hangsUp).Recorded ⟨ada.id,bob.id,"log-1"⟩ 1000 6500 := by
  have hrun : quiet.admits World.careful rings = true ∧
      (quiet.after rings).admits World.careful [accepts,.tick 5500,hangsUp] = true ∧
      (quiet.after rings).phase firstId = .ringing ∧
      (quiet.after rings).parties? firstId = some ⟨ada.id,bob.id,"log-1"⟩ ∧
      ((quiet.after rings).next accepts).phase firstId = .connected 1000 ∧
      talking.phase firstId = .connected 1000 ∧ talking.now = 6500 ∧
      (talking.next hangsUp).phase firstId = .ended := by decide +kernel
  obtain ⟨hrings,hadmits,hringing,hparties,hconnected,hbefore,hnow,hended⟩ := hrun
  simp only [World.admits,Bool.and_eq_true] at hadmits
  obtain ⟨haccept,htick,hhangup,_⟩ := hadmits
  have hreach := Reaches.of_admits careful_sound hrings
  refine ⟨quiet_opened,hreach,?_⟩
  have hlife := (call_lifecycle quiet (quiet.after rings) quiet_opened hreach).2.2.2 firstId _ accepts 1000
    (careful_sound _ _ haccept) hringing hparties hconnected
  have hrecorded := hlife.2 talking _ _ _ (.single ⟨_,careful_sound _ _ htick,rfl⟩)
    (careful_sound _ _ hhangup) (by rw [hbefore]; simp) hended .refl
  rwa [← hlife.1,hnow] at hrecorded

/-- A connected call can be accepted again, which restarts its clock, and rejected, which leaves
its log rejected and without participants. -/
theorem connected_call_answered_again :
    Reaches World.Fresh quiet (quiet.after (rings++[accepts])) ∧
      (quiet.after (rings++[accepts])).phase firstId = .connected 1000 ∧
      (quiet.after (rings++[accepts])).status? "log-1" = some .completed ∧
      Reaches World.Fresh (quiet.after (rings++[accepts])) (quiet.after (rings++[accepts,.tick 5500,accepts])) ∧
      (quiet.after (rings++[accepts,.tick 5500,accepts])).phase firstId = .connected 6500 ∧
      Reaches World.Fresh (quiet.after (rings++[accepts])) (quiet.after (rings++[accepts,.tick 5500,rejects])) ∧
      (quiet.after (rings++[accepts,.tick 5500,rejects])).phase firstId = .ended ∧
      (quiet.after (rings++[accepts,.tick 5500,rejects])).status? "log-1" = some .rejected ∧
      (quiet.after (rings++[accepts,.tick 5500,rejects])).participantsOf "log-1" = [] := by
  have hruns : quiet.admits World.fresh (rings++[accepts]) = true ∧
      (quiet.after (rings++[accepts])).admits World.fresh [.tick 5500,accepts] = true ∧
      (quiet.after (rings++[accepts])).admits World.fresh [.tick 5500,rejects] = true ∧
      (quiet.after (rings++[accepts])).phase firstId = .connected 1000 ∧
      (quiet.after (rings++[accepts])).status? "log-1" = some .completed ∧
      (quiet.after (rings++[accepts,.tick 5500,accepts])).phase firstId = .connected 6500 ∧
      (quiet.after (rings++[accepts,.tick 5500,rejects])).phase firstId = .ended ∧
      (quiet.after (rings++[accepts,.tick 5500,rejects])).status? "log-1" = some .rejected ∧
      (quiet.after (rings++[accepts,.tick 5500,rejects])).participantsOf "log-1" = [] := by decide +kernel
  obtain ⟨hfirst,haccept,hreject,hconnected,hcompleted,hrestarted,hended,hrejected,hnone⟩ := hruns
  exact ⟨.of_admits fresh_sound hfirst,hconnected,hcompleted,.of_admits fresh_sound haccept,hrestarted,
    .of_admits fresh_sound hreject,hended,hrejected,hnone⟩

end Calls

end ZevraServer
