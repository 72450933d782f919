import ZevraServer.RoomTokens

/-!
# Webhooks that are delivered twice

LiveKit delivers an event at least once. `handleRoomStarted` looks for an open log first, and the
handlers of the participants find the row they have written; `handleRoomFinished` inserts a
closed log whenever it finds none to close.
-/

namespace ZevraServer

namespace LiveKit

open Raw.State (getGroupRoomName)

/-- The drawn ids are new. -/
structure World.Fresh (w : World) (i : Ids) : Prop where
  log : ∀ l ∈ w.callLogs, l.id ≠ i.log
  participant : ∀ p ∈ w.participants, p.id ≠ i.participant

/-- Not the end of a room whose name can be stored. -/
def Webhook.Harmless (h : Webhook) : Prop :=
  h.event = .roomFinished → h.roomName = "" ∨ storable 128 h.roomName = false

section

variable {w : World} {e : Setting} {i i' : Ids} {r identity name : String}

theorem openLogs_append (l : CallLog) : (w.insertCallLog l).openLogs r =
    w.openLogs r++([l].filter fun l => l.roomName = some r && l.endedAt.isNone) := List.filter_append ..

theorem insertRoomLog_of {l : CallLog} (hi : ∀ k ∈ w.callLogs, k.id ≠ i.log) (hr : l.roomName = some r)
    (hs : storable 128 r = true) : w.insertRoomLog i l = w.insertCallLog l :=
  if_pos ⟨fun x hx => by
    obtain rfl := Option.some.inj (hr.symm.trans hx)
    exact hs,hi⟩

theorem insertRoomLog_of_not {l : CallLog} (hr : l.roomName = some r) (hs : storable 128 r = false) :
    w.insertRoomLog i l = w :=
  if_neg fun h => by
    have hstored := h.1 r hr
    simp [hs] at hstored

theorem roomStarted_again (hi : w.Fresh i) :
    (w.handleRoomStarted e i r).handleRoomStarted e i' r = w.handleRoomStarted e i r := by
  by_cases hopen : w.openLogs r = []
  · cases hs : storable 128 r with
    | true =>
      have hfirst : w.handleRoomStarted e i r = w.insertCallLog
          ⟨i.log,.livekit,none,none,some r,e.now,none,none,.missed,none⟩ := by
        rw [World.handleRoomStarted,if_pos hopen,insertRoomLog_of hi.log rfl hs]
      rw [hfirst,World.handleRoomStarted,openLogs_append,hopen,if_neg (by simp)]
    | false =>
      have hfirst : ∀ i, w.handleRoomStarted e i r = w := by
        intro i
        rw [World.handleRoomStarted,if_pos hopen,insertRoomLog_of_not rfl hs]
      rw [hfirst,hfirst]
  · have hfirst : ∀ i, w.handleRoomStarted e i r = w := fun i => if_neg hopen
    rw [hfirst,hfirst]

/-- The end of a room leaves no log open. -/
theorem openLogs_finished : (w.handleRoomFinished e i r).openLogs r = [] := by
  by_cases hopen : w.openLogs r = []
  · rw [World.handleRoomFinished,if_pos hopen]
    unfold World.insertRoomLog
    split
    · rw [openLogs_append,hopen]
      simp
    · exact hopen
  · rw [World.handleRoomFinished,if_neg hopen]
    refine List.filter_eq_nil_iff.mpr fun l hl => ?_
    obtain ⟨k,_,rfl⟩ := List.mem_map.mp hl
    split
    · simp [World.finish]
    · rename_i hk
      simp only [Bool.and_eq_true,decide_eq_true_eq,Option.isNone_iff_eq_none]
      exact hk

theorem roomFinished_again (hi' : (w.handleRoomFinished e i r).Fresh i') (hs : storable 128 r = true) :
    ((w.handleRoomFinished e i r).handleRoomFinished e i' r).callLogs.length =
      (w.handleRoomFinished e i r).callLogs.length+1 := by
  rw [World.handleRoomFinished,if_pos openLogs_finished,insertRoomLog_of hi'.log rfl hs]
  simp [World.insertCallLog]

theorem roomFinished_unstorable (hs : storable 128 r = false) :
    (w.handleRoomFinished e i r).handleRoomFinished e i' r = w.handleRoomFinished e i r := by
  rw [World.handleRoomFinished,if_pos openLogs_finished,insertRoomLog_of_not rfl hs]

/-! ### Participants -/

theorem participant_of {ps : List Participant} {l u : Uuid} {p : Participant}
    (h : ps.find? (fun p => p.callLogId = l && p.userId = u) = some p) :
    p ∈ ps ∧ p.callLogId = l ∧ p.userId = u := by
  have hp := List.find?_some h
  simp only [Bool.and_eq_true,decide_eq_true_eq] at hp
  exact ⟨List.mem_of_find?_eq_some h,hp⟩

/-- An update that keeps the keys of a row finds the rows it found before. -/
theorem find?_update {ps : List Participant} {f : Participant → Participant} {l u : Uuid}
    (hf : ∀ p, (f p).callLogId = p.callLogId ∧ (f p).userId = p.userId) :
    (ps.map f).find? (fun p => p.callLogId = l && p.userId = u) =
      (ps.find? fun p => p.callLogId = l && p.userId = u).map f := by
  rw [List.find?_map]
  congr 2
  funext p
  simp [hf p]

theorem latestLogId_congr {w' : World} (h : w'.callLogs = w.callLogs) : w'.latestLogId e r = w.latestLogId e r := by
  simp only [World.latestLogId,World.newestLogs,h]

theorem participant?_none {l u : Uuid} (h : w.participant? l u = none) :
    ∀ p ∈ w.participants, ¬(p.callLogId = l ∧ p.userId = u) := by
  intro p hp
  simpa using List.find?_eq_none.mp h p hp

theorem updateParticipant_none {l u : Uuid} {f : Participant → Participant} (h : w.participant? l u = none) :
    w.updateParticipant l u f = w := by
  have hmap : (w.participants.map fun p => if p.callLogId = l ∧ p.userId = u then f p else p) = w.participants := by
    conv_rhs => rw [← List.map_id w.participants]
    exact List.map_congr_left fun p hp => if_neg (participant?_none h p hp)
  rw [World.updateParticipant,hmap]

theorem participant?_update {l u : Uuid} {f : Participant → Participant} {q : Participant}
    (hf : ∀ p, (f p).callLogId = p.callLogId ∧ (f p).userId = p.userId) (h : w.participant? l u = some q) :
    (w.updateParticipant l u f).participant? l u = some (f q) := by
  have hkeys : ∀ p : Participant, (if p.callLogId = l ∧ p.userId = u then f p else p).callLogId = p.callLogId ∧
      (if p.callLogId = l ∧ p.userId = u then f p else p).userId = p.userId := by
    intro p
    split
    · exact hf p
    · exact ⟨rfl,rfl⟩
  obtain ⟨_,hq⟩ := participant_of h
  have hfind : (w.updateParticipant l u f).participant? l u = (w.participant? l u).map _ := find?_update hkeys
  rw [hfind,h,Option.map_some,if_pos hq]

theorem updateParticipant_again {l u : Uuid} {f : Participant → Participant}
    (hf : ∀ p, (f p).callLogId = p.callLogId ∧ (f p).userId = p.userId) (hff : ∀ p, f (f p) = f p) :
    (w.updateParticipant l u f).updateParticipant l u f = w.updateParticipant l u f := by
  have hmap : ∀ p : Participant, (fun p => if p.callLogId = l ∧ p.userId = u then f p else p)
      (if p.callLogId = l ∧ p.userId = u then f p else p) =
        if p.callLogId = l ∧ p.userId = u then f p else p := by
    intro p
    by_cases hp : p.callLogId = l ∧ p.userId = u
    · simp only [if_pos hp]
      rw [if_pos (by rwa [(hf p).1,(hf p).2]),hff]
    · simp only [if_neg hp]
  simp only [World.updateParticipant,List.map_map]
  congr 1
  exact List.map_congr_left fun p _ => hmap p

/-- A second join finds the row of the first. -/
theorem joined_again (hi : w.Fresh i) :
    (w.handleParticipantJoined e i r identity name).handleParticipantJoined e i' r identity name =
      w.handleParticipantJoined e i r identity name := by
  cases hid : isUuid identity with
  | false =>
    have hsame : ∀ i, w.handleParticipantJoined e i r identity name = w := by
      intro i
      simp [World.handleParticipantJoined,hid]
    rw [hsame,hsame]
  | true =>
    cases hlog : w.latestLogId e r with
    | none =>
      have hsame : ∀ i, w.handleParticipantJoined e i r identity name = w := by
        intro i
        simp [World.handleParticipantJoined,hid,hlog]
      rw [hsame,hsame]
    | some logId =>
      have hfound : ∀ {v : World} {q i}, v.callLogs = w.callLogs → v.participant? logId (.ofText identity) = some q →
          v.handleParticipantJoined e i r identity name =
            v.updateParticipant logId (.ofText identity) (World.rejoin e) := by
        intro v q i hv hq
        simp [World.handleParticipantJoined,hid,latestLogId_congr hv,hlog,hq]
      cases hrow : w.participant? logId (.ofText identity) with
      | some q =>
        have hrow' := participant?_update (f := World.rejoin e) (fun _ => ⟨rfl,rfl⟩) hrow
        rw [hfound rfl hrow,hfound (by rfl) hrow']
        exact updateParticipant_again (fun _ => ⟨rfl,rfl⟩) fun _ => rfl
      | none =>
        have hinsert : ∀ i, w.handleParticipantJoined e i r identity name = w.insertParticipant
            ⟨i.participant,logId,.ofText identity,String.ofList (World.slice 32 name.toList),e.now,none,none⟩ := by
          intro i
          simp [World.handleParticipantJoined,hid,hlog,hrow]
        rw [hinsert i]
        unfold World.insertParticipant
        split
        · rename_i hok
          have hnew : ∀ p : Participant, p.callLogId = logId → p.userId = .ofText identity →
              World.participant? { w with participants := w.participants++[p] } logId (.ofText identity) = some p := by
            intro p hl hu
            simp only [World.participant?] at hrow ⊢
            rw [List.find?_append,hrow]
            simp [hl,hu]
          rw [hfound (by rfl) (hnew _ rfl rfl)]
          have hold : (w.participants.map fun p => if p.callLogId = logId ∧ p.userId = .ofText identity then
              World.rejoin e p else p) = w.participants :=
            congrArg World.participants (updateParticipant_none hrow)
          simp only [World.updateParticipant,List.map_append,List.map_cons,List.map_nil,and_self,if_true]
          rw [hold]
          rfl
        · rename_i hno
          rw [hinsert i']
          refine if_neg fun hok => hno ⟨hok.1,hok.2.1,?_⟩
          exact hi.participant

theorem left_again :
    (w.handleParticipantLeft e r identity).handleParticipantLeft e r identity = w.handleParticipantLeft e r identity := by
  cases hid : isUuid identity with
  | false => simp [World.handleParticipantLeft,hid]
  | true =>
    cases hlog : w.latestLogId e r with
    | none => simp [World.handleParticipantLeft,hid,hlog]
    | some logId =>
      cases hrow : w.participant? logId (.ofText identity) with
      | none => simp [World.handleParticipantLeft,hid,hlog,hrow]
      | some q =>
        have hfirst : ∀ {v : World} {q}, v.callLogs = w.callLogs →
            v.participant? logId (.ofText identity) = some q → v.handleParticipantLeft e r identity =
              { v with participants := v.participants.map fun p => if p.id = q.id then World.leave e q.joinedAt p else p } := by
          intro v q hv hq
          simp [World.handleParticipantLeft,hid,latestLogId_congr hv,hlog,hq]
        rw [hfirst rfl hrow]
        have hkeys : ∀ p : Participant, (if p.id = q.id then World.leave e q.joinedAt p else p).callLogId = p.callLogId ∧
            (if p.id = q.id then World.leave e q.joinedAt p else p).userId = p.userId := by
          intro p
          split <;> exact ⟨rfl,rfl⟩
        have hagain := (@find?_update w.participants _ logId (.ofText identity) hkeys).trans
          (congrArg (Option.map _) hrow)
        rw [Option.map_some,if_pos rfl] at hagain
        rw [hfirst (v := { w with
          participants := w.participants.map fun p => if p.id = q.id then World.leave e q.joinedAt p else p })
          rfl hagain]
        simp only [List.map_map]
        congr 1
        refine List.map_congr_left fun p _ => ?_
        by_cases hp : p.id = q.id
        · simp [World.leave,hp]
        · simp [World.leave,hp]

end

/-- Handling an event a second time changes nothing, unless it is the end of a room whose name
can be stored: this inserts one more log. -/
theorem webhook_redelivery (w : World) (e : Setting) (i i' : Ids) (h : Webhook) (hi : w.Fresh i)
    (hi' : (w.handleWebhook e i h).Fresh i') :
    (((w.handleWebhook e i h).handleWebhook e i' h).callLogs = (w.handleWebhook e i h).callLogs ∧
      ((w.handleWebhook e i h).handleWebhook e i' h).participants = (w.handleWebhook e i h).participants) ↔
      h.Harmless := by
  have hsame : (w.handleWebhook e i h).handleWebhook e i' h = w.handleWebhook e i h →
      h.event ≠ .roomFinished ∨ h.Harmless →
      ((((w.handleWebhook e i h).handleWebhook e i' h).callLogs = (w.handleWebhook e i h).callLogs ∧
        ((w.handleWebhook e i h).handleWebhook e i' h).participants = (w.handleWebhook e i h).participants) ↔
        h.Harmless) := by
    intro he hh
    rw [he]
    refine ⟨fun _ => ?_,fun _ => ⟨rfl,rfl⟩⟩
    rcases hh with hh | hh
    · exact fun hf => absurd hf hh
    · exact hh
  obtain ⟨event,r,identity,name⟩ := h
  cases event with
  | roomStarted =>
    refine hsame ?_ (.inl (by simp))
    simp only [World.handleWebhook]
    split_ifs
    · rfl
    · exact roomStarted_again hi
  | roomFinished =>
    by_cases hr : r = ""
    · exact hsame (by simp [World.handleWebhook,hr]) (.inr fun _ => .inl hr)
    · have hfinished : ∀ (v : World) i, v.handleWebhook e i ⟨.roomFinished,r,identity,name⟩ =
          v.handleRoomFinished e i r := fun v i => if_neg hr
      cases hs : storable 128 r with
      | false =>
        refine hsame ?_ (.inr fun _ => .inr hs)
        rw [hfinished,hfinished,roomFinished_unstorable hs]
      | true =>
        rw [hfinished] at hi'
        rw [hfinished,hfinished]
        refine ⟨fun hno => ?_,fun hh => ?_⟩
        · have hlength := congrArg List.length hno.1
          rw [roomFinished_again hi' hs] at hlength
          omega
        · rcases hh rfl with hempty | hfalse
          · exact absurd hempty hr
          · exact absurd hs (by simp [hfalse])
  | participantJoined =>
    refine hsame ?_ (.inl (by simp))
    simp only [World.handleWebhook]
    split_ifs
    · rfl
    · exact joined_again hi
    · exact joined_again hi
  | participantLeft =>
    refine hsame ?_ (.inl (by simp))
    simp only [World.handleWebhook]
    split_ifs
    · rfl
    · exact left_again
  | other => exact hsame rfl (.inl (by simp))

/-- The log of a group call that has not ended. -/
def choirLog : CallLog :=
  ⟨7,.livekit,some (.ofText ann.id),none,some (getGroupRoomName choirId),0,none,none,.missed,some (.ofText choirId)⟩

def choirCalling : World := choir.insertCallLog choirLog

def annJoins : Webhook := ⟨.participantJoined,getGroupRoomName choirId,ann.id,ann.username⟩

def choirEnds : Webhook := ⟨.roomFinished,getGroupRoomName choirId,"",""⟩

theorem webhook_redelivery_join :
    choirCalling.Fresh ⟨8,8⟩ ∧ (choirCalling.handleWebhook ⟨2000,0⟩ ⟨8,8⟩ annJoins).participants.length = 1 ∧
      ((choirCalling.handleWebhook ⟨2000,0⟩ ⟨8,8⟩ annJoins).handleWebhook ⟨2000,0⟩ ⟨9,9⟩ annJoins).participants =
        (choirCalling.handleWebhook ⟨2000,0⟩ ⟨8,8⟩ annJoins).participants := by
  have hids : (∀ l ∈ choirCalling.callLogs, l.id ≠ 8) ∧
      (∀ l ∈ (choirCalling.handleWebhook ⟨2000,0⟩ ⟨8,8⟩ annJoins).callLogs, l.id ≠ 9) ∧
      (∀ q ∈ (choirCalling.handleWebhook ⟨2000,0⟩ ⟨8,8⟩ annJoins).participants, q.id ≠ 9) ∧
      (choirCalling.handleWebhook ⟨2000,0⟩ ⟨8,8⟩ annJoins).participants.length = 1 := by decide +kernel
  obtain ⟨hlogs,hlogs',hrows,hone⟩ := hids
  have hfirst : choirCalling.Fresh ⟨8,8⟩ := ⟨hlogs,by simp [choirCalling,choir,World.insertCallLog]⟩
  exact ⟨hfirst,hone,((webhook_redelivery choirCalling ⟨2000,0⟩ ⟨8,8⟩ ⟨9,9⟩ annJoins hfirst ⟨hlogs',hrows⟩).mpr
    (fun h => by simp [annJoins] at h)).2⟩

/-- The end of a room, delivered twice: the second time inserts a call that never was. -/
theorem room_finished_twice :
    (choirCalling.handleWebhook ⟨9000,0⟩ ⟨8,8⟩ choirEnds).callLogs = [World.finish ⟨9000,0⟩ choirLog] ∧
      ((choirCalling.handleWebhook ⟨9000,0⟩ ⟨8,8⟩ choirEnds).handleWebhook ⟨9000,0⟩ ⟨9,9⟩ choirEnds).callLogs =
        [World.finish ⟨9000,0⟩ choirLog,
          ⟨9,.livekit,none,none,some (getGroupRoomName choirId),9000,some 9000,some 0,.completed,none⟩] ∧
      ((choirCalling.handleWebhook ⟨9000,0⟩ ⟨8,8⟩ choirEnds).handleWebhook ⟨9000,0⟩ ⟨9,9⟩ choirEnds).callLogs ≠
        (choirCalling.handleWebhook ⟨9000,0⟩ ⟨8,8⟩ choirEnds).callLogs := by
  decide +kernel

end LiveKit

end ZevraServer
