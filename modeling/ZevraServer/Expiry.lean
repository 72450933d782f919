import ZevraServer.SocketEvents

/-!
# Events on an expired token

`SocketAuthGuard` and `beat` refuse an expired token before anything else happens. The
handlers of `CallsGateway` ask only for a user: on an expired token they go on, and whatever
they come to, their socket is told of neither.
-/

namespace ZevraServer.SocketEvents

open Calls (SocketUser ActiveCall Refusal)

variable {α β : Type} {h : Handler α} {P : α → Prop}

/-! ### What the handlers of calls never do -/

def Effect.isError : Effect → Bool
  | .error _ _ => true
  | _ => false

/-- The handler tells its socket of no error, its value satisfies `P`, and what it throws is an error
of a statement or a client. -/
def Handler.Discreet (h : Handler α) (P : α → Prop) : Prop :=
  ∀ a es, (∀ e ∈ es, e.isError = false) →
    (∀ e ∈ (h a es).2, e.isError = false) ∧ (∀ x, (h a es).1 = .ok x → P x) ∧
      ∀ t, (h a es).1 = .error t → t.bare = true

namespace Handler.Discreet

theorem pure {x : α} (hx : P x) : Handler.Discreet (Pure.pure x) P := by
  intro a es hes
  refine ⟨hes,?_,?_⟩
  · rintro y hy
    obtain rfl : x = y := Except.ok.inj hy
    exact hx
  · intro t ht
    cases ht

theorem bind {f : α → Handler β} {Q : β → Prop} (hh : h.Discreet fun _ => True) (hf : ∀ x, (f x).Discreet Q) :
    Handler.Discreet (h >>= f) Q := by
  intro a es hes
  obtain ⟨heff,_,herr⟩ := hh a es hes
  rcases hr : h a es with ⟨t | x,es'⟩
  · have hrun : (h >>= f) a es = (.error t,es') := by simp only [Bind.bind,hr]
    rw [hr] at heff herr
    rw [hrun]
    refine ⟨heff,?_,?_⟩
    · intro y hy
      cases hy
    · intro t' ht
      cases ht
      exact herr t rfl
  · have hrun : (h >>= f) a es = f x a es' := by simp only [Bind.bind,hr]
    rw [hr] at heff
    rw [hrun]
    exact hf x a es' heff

theorem ask {c : Command} (hc : c.ofCalls = true) : Handler.Discreet (Handler.ask c) fun _ => True := by
  intro a es hes
  refine ⟨?_,fun _ _ => trivial,fun t ht => a.bare c t hc ht⟩
  simp only [Handler.ask,List.mem_append,List.mem_singleton]
  rintro e (he | rfl)
  · exact hes e he
  · rfl

theorem emitToUser (userId : RawId) (event : String) (data : Values) :
    Handler.Discreet (Handler.emitToUser userId event data) fun _ => True := by
  intro a es hes
  refine ⟨?_,fun _ _ => trivial,fun t ht => by cases ht⟩
  simp only [Handler.emitToUser,Handler.tell,List.mem_append,List.mem_singleton]
  rintro e (he | rfl)
  · exact hes e he
  · rfl

end Handler.Discreet

/-- An acknowledgement that does not ask the socket to authenticate. -/
def Ack.Passes (r : Ack) : Prop := ∀ x, r = .refused x → x.error ≠ "NOT_AUTHENTICATED"

theorem success_passes (fields : Values) : (Ack.success fields).Passes := by
  intro x hx
  cases hx

theorem refused_passes {r : Refusal} (hr : r.error ≠ "NOT_AUTHENTICATED") : (Ack.refused r).Passes := by
  rintro x hx
  cases hx
  exact hr

theorem toSocketError_passes {t : Thrown} (ht : t.bare = true) : (toSocketError t).Passes := by
  cases t with
  | socket code message => simp [Thrown.bare] at ht
  | http status message => simp [Thrown.bare] at ht
  | pg code =>
    refine refused_passes ?_
    unfold mapPgError
    split
    · decide
    · split
      · decide
      · split <;> decide
  | other => exact refused_passes (by decide)

theorem Handler.Discreet.attempt {h : Handler Ack} (hh : h.Discreet Ack.Passes) :
    (Handler.attempt h).Discreet Ack.Passes := by
  intro a es hes
  obtain ⟨heff,hok,herr⟩ := hh a es hes
  rcases hr : h a es with ⟨t | r,es'⟩
  · rw [hr] at heff herr
    rw [Handler.attempt,hr]
    refine ⟨heff,fun r hr => ?_,fun t' ht => by cases ht⟩
    cases hr
    exact toSocketError_passes (herr t rfl)
  · rw [hr] at heff hok
    rw [Handler.attempt,hr]
    exact ⟨heff,hok,fun t' ht => by cases ht⟩

theorem Handler.Discreet.orNull {h : Handler (Option α)} (hh : h.Discreet fun _ => True) :
    (Handler.orNull h).Discreet fun _ => True := by
  intro a es hes
  obtain ⟨heff,_,_⟩ := hh a es hes
  rcases hr : h a es with ⟨t | r,es'⟩ <;> rw [hr] at heff <;> rw [Handler.orNull,hr] <;>
    exact ⟨heff,fun _ _ => trivial,fun t' ht => by cases ht⟩

section calls

variable (user : SocketUser) (data : Body)

theorem handleInvite_discreet : (handleInvite (some user) data).Discreet Ack.Passes := by
  refine .attempt ?_
  simp only
  split
  · exact .pure (refused_passes (by decide))
  · refine .bind (.ask rfl) fun allowed => ?_
    split
    · exact .pure (refused_passes (by decide))
    · refine .bind (.ask rfl) fun active => ?_
      split
      · exact .pure (refused_passes (by decide))
      · refine .bind (.ask rfl) fun busy => ?_
        split
        · exact .pure (refused_passes (by decide))
        · refine .bind (.ask rfl) fun online => ?_
          split
          · exact .pure (refused_passes (by decide))
          · refine .bind (.ask rfl) fun callLogId => .bind (.ask rfl) fun call => ?_
            exact .bind (.emitToUser _ _ _) fun _ => .pure (success_passes _)

theorem namedCall_discreet (callId : RawId) : (namedCall user callId).Discreet fun _ => True :=
  .bind (.ask rfl) fun _ => .pure trivial

theorem callLogOf_discreet (call : ActiveCall) : (callLogOf call).Discreet fun _ => True := by
  unfold callLogOf
  split
  · exact .pure trivial
  · exact .ask rfl

theorem handleAccept_discreet : (handleAccept (some user) data).Discreet Ack.Passes := by
  refine .attempt ?_
  simp only
  split
  · exact .pure (refused_passes (by decide))
  · refine .bind (namedCall_discreet user _) fun found => ?_
    split
    · exact .pure (refused_passes (by decide))
    · refine .bind (.ask rfl) fun _ => ?_
      split
      · exact .bind (.emitToUser _ _ _) fun _ => .pure (success_passes _)
      · exact .bind (.ask rfl) fun _ => .bind (.emitToUser _ _ _) fun _ => .pure (success_passes _)

theorem handleReject_discreet : (handleReject (some user) data).Discreet Ack.Passes := by
  refine .attempt ?_
  simp only
  split
  · exact .pure (refused_passes (by decide))
  · refine .bind (namedCall_discreet user _) fun found => ?_
    split
    · exact .pure (refused_passes (by decide))
    · refine .bind (callLogOf_discreet _) fun _ => .bind (.ask rfl) fun _ => .bind (.ask rfl) fun _ => ?_
      exact .bind (.emitToUser _ _ _) fun _ => .pure (success_passes _)

theorem handleHangup_discreet : (handleHangup (some user) data).Discreet Ack.Passes := by
  refine .attempt ?_
  simp only
  split
  · exact .pure (refused_passes (by decide))
  · refine .bind (namedCall_discreet user _) fun found => ?_
    split
    · exact .pure (refused_passes (by decide))
    · have hlast : ∀ (callId : String) (other : RawId), (Handler.ask (.cleanupCall callId) >>= fun _ =>
          Handler.emitToUser other "call:hangup" [("callId",.text callId)] >>= fun _ =>
            (Pure.pure (.success []) : Handler Ack)).Discreet Ack.Passes := fun _ _ =>
        .bind (.ask rfl) fun _ => .bind (.emitToUser _ _ _) fun _ => .pure (success_passes _)
      split
      · exact .bind (.bind (callLogOf_discreet _) fun _ => .ask rfl) fun _ => hlast _ _
      · exact hlast _ _

theorem relayTarget_discreet (callId : Js) : (relayTarget (some user) callId).Discreet fun _ => True := by
  unfold relayTarget
  split
  · refine .bind (.ask rfl) fun allowed => ?_
    split
    · exact .pure trivial
    · exact .bind (namedCall_discreet _ _) fun _ => .pure trivial
  · exact .pure trivial

theorem relaySdp_discreet (event : String) (fields : SocketUser → String → Values) :
    (relaySdp (some user) data event fields).Discreet fun _ => True := by
  unfold relaySdp
  split
  · exact .pure trivial
  · refine .bind (.orNull (relayTarget_discreet user _)) fun ctx => ?_
    split
    · exact .pure trivial
    · exact .emitToUser _ _ _

theorem handleIceCandidate_discreet : (handleIceCandidate (some user) data).Discreet fun _ => True := by
  unfold handleIceCandidate
  simp only
  split
  · exact .pure trivial
  · refine .bind (.orNull (relayTarget_discreet user _)) fun ctx => ?_
    split
    · exact .pure trivial
    · exact .emitToUser _ _ _

theorem inviteMembers_discreet (roomName : String) (names : List SocketUser) (candidates : List RawId) :
    (inviteMembers user roomName names candidates).Discreet fun _ => True := by
  induction candidates with
  | nil => exact .pure trivial
  | cons targetId rest ih =>
    unfold inviteMembers
    split
    · exact ih
    · refine .bind (.ask rfl) fun authorized => ?_
      split
      · exact ih
      · refine .bind (.ask rfl) fun targetToken => ?_
        simp only
        split
        · exact ih
        · exact .bind (.emitToUser _ _ _) fun _ => ih

theorem initiateLiveKitGroupCall_discreet (channelId : RawId) (targetUserIds : List RawId) :
    (initiateLiveKitGroupCall user channelId targetUserIds).Discreet Ack.Passes := by
  refine .bind (.ask rfl) fun configured => ?_
  split
  · exact .pure (refused_passes (by decide))
  · refine .bind (.ask rfl) fun _ => .bind (.ask rfl) fun _ => .bind (.ask rfl) fun _ => ?_
    refine .bind (.ask rfl) fun names => ?_
    exact .bind (inviteMembers_discreet user _ names _) fun _ => .pure (success_passes _)

theorem initiateDirect_discreet (targetUserIds : List RawId) (channelId : Option RawId) :
    (initiateDirect user targetUserIds channelId).Discreet Ack.Passes := by
  unfold initiateDirect
  split
  · exact .pure (refused_passes (by decide))
  · refine .bind (.ask rfl) fun busy => ?_
    split
    · exact .pure (refused_passes (by decide))
    · refine .bind (.ask rfl) fun online => ?_
      split
      · exact .pure (refused_passes (by decide))
      · refine .bind (.ask rfl) fun _ => .bind (.ask rfl) fun _ => .bind (.ask rfl) fun _ => ?_
        exact .bind (.emitToUser _ _ _) fun _ => .bind (.emitToUser _ _ _) fun _ => .pure (success_passes _)

theorem channelId_passes {r : Ack} (hr : channelId? data = .error r) : r.Passes := by
  unfold channelId? at hr
  simp only at hr
  split at hr
  · cases hr
  · split at hr
    · cases hr
      exact refused_passes (by decide)
    · cases hr

theorem handleInitiate_discreet : (handleInitiate (some user) data).Discreet Ack.Passes := by
  refine .attempt ?_
  simp only
  split
  · exact .pure (refused_passes (by decide))
  · split
    · exact .pure (refused_passes (by decide))
    · split
      · rename_i hr
        exact .pure (channelId_passes data hr)
      · refine .bind (.ask rfl) fun allowed => ?_
        split
        · exact .pure (refused_passes (by decide))
        · refine .bind (.ask rfl) fun active => ?_
          split
          · exact .pure (refused_passes (by decide))
          · split
            · exact initiateDirect_discreet user _ _
            · split
              · exact .pure (refused_passes (by decide))
              · refine .bind (.ask rfl) fun authorized => ?_
                split
                · exact .pure (refused_passes (by decide))
                · exact initiateLiveKitGroupCall_discreet user _ _

theorem inviteTarget_discreet (roomName : String) (targetId : RawId) (name : Option String) :
    (inviteTarget user roomName targetId name).Discreet fun _ => True := by
  cases name with
  | none => exact .pure trivial
  | some name =>
    refine .bind (.ask rfl) fun targetToken => ?_
    split
    · exact .pure trivial
    · exact .emitToUser _ _ _

theorem handleLiveKitFallback_discreet : (handleLiveKitFallback (some user) data).Discreet Ack.Passes := by
  refine .attempt ?_
  simp only
  split
  · exact .pure (refused_passes (by decide))
  · split
    · rename_i hr
      exact .pure (channelId_passes data hr)
    · refine .bind (.ask rfl) fun configured => ?_
      split
      · exact .pure (refused_passes (by decide))
      · refine .bind (.ask rfl) fun allowed => ?_
        split
        · exact .pure (refused_passes (by decide))
        · split
          · exact .pure (refused_passes (by decide))
          · refine .bind (.ask rfl) fun _ => .bind (.ask rfl) fun _ => .bind (.ask rfl) fun token => ?_
            split
            · exact .pure (refused_passes (by decide))
            · refine .bind (.ask rfl) fun names => ?_
              exact .bind (inviteTarget_discreet user _ _ _) fun _ => .pure (success_passes _)

theorem handleLiveKitActive_discreet : (handleLiveKitActive (some user) data).Discreet Ack.Passes := by
  refine .attempt ?_
  simp only
  split
  · exact .pure (refused_passes (by decide))
  · refine .bind (.ask rfl) fun authorized => ?_
    split
    · exact .pure (refused_passes (by decide))
    · refine .bind (.ask rfl) fun configured => ?_
      split
      · exact .pure (success_passes _)
      · exact .bind (.ask rfl) fun _ => .pure (success_passes _)

theorem handleLiveKitJoinGroup_discreet : (handleLiveKitJoinGroup (some user) data).Discreet Ack.Passes := by
  refine .attempt ?_
  simp only
  split
  · exact .pure (refused_passes (by decide))
  · refine .bind (.ask rfl) fun configured => ?_
    split
    · exact .pure (refused_passes (by decide))
    · refine .bind (.ask rfl) fun authorized => ?_
      split
      · exact .pure (refused_passes (by decide))
      · refine .bind (.ask rfl) fun token => ?_
        split
        · exact .pure (refused_passes (by decide))
        · exact .pure (success_passes _)

end calls

/-! ### Refusals -/

section refusals

variable {client : Client} {nowMs : ℕ} {a : Answers} {userId : Option RawId}

theorem acked_ok {h : Handler Ack} {r : Ack} {es : List Effect} (hrun : h a [] = (.ok r,es)) :
    client.acked a h = ⟨es,some r,client.data⟩ := by
  simp only [Client.acked,Client.plain,Functor.map,hrun]
  rfl

theorem acked_error {h : Handler Ack} {t : Thrown} {es : List Effect} (hrun : h a [] = (.error t,es)) :
    client.acked a h = ⟨es,none,client.data⟩ := by
  simp [Client.acked,Client.plain,Functor.map,hrun]

theorem silent_eq (h : Handler Unit) : client.silent a h = ⟨(h a []).2,none,client.data⟩ := by
  rcases hrun : h a [] with ⟨t | x,es⟩
  · simp only [Client.silent,Client.plain,Functor.map,hrun]
  · simp only [Client.silent,Client.plain,Functor.map,hrun]
    rfl

theorem acked_not_refuses {h : Handler Ack} (hh : h.Discreet Ack.Passes) : ¬ (client.acked a h).Refuses userId := by
  obtain ⟨heff,hok,_⟩ := hh a [] (by simp)
  rcases hrun : h a [] with ⟨t | x,es⟩
  · rw [acked_error hrun]
    rw [hrun] at heff
    rintro ⟨⟨message,hm⟩ | ⟨r,hr,_⟩,_⟩
    · simpa [Effect.isError] using heff _ hm
    · cases hr
  · rw [acked_ok hrun]
    rw [hrun] at heff hok
    rintro ⟨⟨message,hm⟩ | ⟨r,hr,he⟩,_⟩
    · simpa [Effect.isError] using heff _ hm
    · obtain rfl := Option.some.inj hr
      exact hok _ rfl r rfl he

theorem silent_not_refuses {h : Handler Unit} (hh : h.Discreet fun _ => True) :
    ¬ (client.silent a h).Refuses userId := by
  obtain ⟨heff,_,_⟩ := hh a [] (by simp)
  rw [silent_eq]
  rintro ⟨⟨message,hm⟩ | ⟨r,hr,_⟩,_⟩
  · simpa [Effect.isError] using heff _ hm
  · cases hr

/-- No event of `CallsGateway` is refused to a socket with a user. -/
theorem calls_not_refused {user : SocketUser} (hu : client.data.user = some user) {e : Event}
    (he : e.ofCalls = true) : ¬ (client.serve nowMs a e).Refuses userId := by
  cases e with
  | callInvite data => rw [Client.serve,hu]; exact acked_not_refuses (handleInvite_discreet user data)
  | callAccept data => rw [Client.serve,hu]; exact acked_not_refuses (handleAccept_discreet user data)
  | callReject data => rw [Client.serve,hu]; exact acked_not_refuses (handleReject_discreet user data)
  | callOffer data => rw [Client.serve,hu]; exact silent_not_refuses (relaySdp_discreet user data _ _)
  | callAnswer data => rw [Client.serve,hu]; exact silent_not_refuses (relaySdp_discreet user data _ _)
  | callIceCandidate data => rw [Client.serve,hu]; exact silent_not_refuses (handleIceCandidate_discreet user data)
  | callHangup data => rw [Client.serve,hu]; exact acked_not_refuses (handleHangup_discreet user data)
  | callInitiate data => rw [Client.serve,hu]; exact acked_not_refuses (handleInitiate_discreet user data)
  | callLiveKitFallback data =>
    rw [Client.serve,hu]
    exact acked_not_refuses (handleLiveKitFallback_discreet user data)
  | callLiveKitActive data => rw [Client.serve,hu]; exact acked_not_refuses (handleLiveKitActive_discreet user data)
  | callLiveKitJoinGroup data =>
    rw [Client.serve,hu]
    exact acked_not_refuses (handleLiveKitJoinGroup_discreet user data)
  | _ => simp [Event.ofCalls] at he

theorem canActivate_expired {user : SocketUser} (hu : client.data.user = some user)
    (ht : isTokenExpired client.data nowMs = true) :
    canActivate client nowMs a = .error ("TOKEN_EXPIRED","TOKEN_EXPIRED") := by
  simp [canActivate,hu,ht]

theorem guarded_refuses {user : SocketUser} (hu : client.data.user = some user)
    (ht : isTokenExpired client.data nowMs = true) (h : SocketUser → Handler Ack) :
    (client.guarded nowMs a h).Refuses userId := by
  rw [Client.guarded,canActivate_expired hu ht]
  refine ⟨.inl ⟨_,List.mem_cons_self ..⟩,?_⟩
  rintro (⟨e,he,hacts⟩ | ⟨r,hr,_⟩)
  · simp only [List.mem_cons,List.not_mem_nil,or_false] at he
    rcases he with rfl | rfl <;> simp [Effect.acts] at hacts
  · simp at hr

theorem heartbeat_refuses {user : SocketUser} (hu : client.data.user = some user)
    (ht : isTokenExpired client.data nowMs = true) :
    (client.acked a (handleHeartbeat client nowMs)).Refuses userId := by
  have hrun : handleHeartbeat client nowMs a [] =
      (.ok (socketError .notAuthenticated "Token expired"),[.error "TOKEN_EXPIRED" "Token expired",.disconnect]) := by
    simp [handleHeartbeat,beat,hu,ht,rejectConnection,Handler.tell,Bind.bind,Pure.pure]
  rw [acked_ok hrun]
  refine ⟨.inl ⟨_,List.mem_cons_self ..⟩,?_⟩
  rintro (⟨e,he,hacts⟩ | ⟨r,hr,hs⟩)
  · simp only [List.mem_cons,List.not_mem_nil,or_false] at he
    rcases he with rfl | rfl <;> simp [Effect.acts] at hacts
  · obtain rfl := Option.some.inj hr
    simp [Ack.isSuccess,socketError,refuse] at hs

/-- The other gateways refuse every event on an expired token. -/
theorem others_refused {user : SocketUser} (hu : client.data.user = some user)
    (ht : isTokenExpired client.data nowMs = true) {e : Event} (he : e.ofCalls = false) :
    (client.serve nowMs a e).Refuses userId := by
  cases e with
  | heartbeat => exact heartbeat_refuses hu ht
  | callInvite _ | callAccept _ | callReject _ | callOffer _ | callAnswer _ | callIceCandidate _ | callHangup _
  | callInitiate _ | callLiveKitFallback _ | callLiveKitActive _ | callLiveKitJoinGroup _ =>
    simp [Event.ofCalls] at he
  | _ => exact guarded_refuses hu ht _

end refusals

/-! ### The data of a socket -/

/-- A token's expiry is kept only beside its user. -/
def SocketData.Paired (d : SocketData) : Prop := d.user = none → d.tokenExp = none

theorem plain_data (client : Client) (a : Answers) (h : Handler (Option Ack)) :
    (client.plain a h).data = client.data := by
  unfold Client.plain
  split <;> rfl

theorem guarded_paired {client : Client} (hc : client.data.Paired) (nowMs : ℕ) (a : Answers)
    (h : SocketUser → Handler Ack) : (client.guarded nowMs a h).data.Paired := by
  unfold Client.guarded
  split
  · exact hc
  · rw [Client.acked,plain_data]
    intro hn
    cases hn

theorem serve_paired {client : Client} (hc : client.data.Paired) (nowMs : ℕ) (a : Answers) (e : Event) :
    (client.serve nowMs a e).data.Paired := by
  have hplain : ∀ h : Handler (Option Ack), (client.plain a h).data.Paired := by
    intro h
    rwa [plain_data]
  cases e <;> first | exact guarded_paired hc _ _ _ | exact hplain _

theorem next_paired {client : Client} (hc : client.data.Paired) (o : Occurrence) : (client.next o).data.Paired := by
  cases o with
  | connection a =>
    unfold Client.next
    simp only
    split
    · intro hn
      cases hn
    · exact hc
  | event e nowMs a => exact serve_paired hc nowMs a e

theorem after_paired {client : Client} (hc : client.data.Paired) (os : List Occurrence) :
    (client.after os).data.Paired := by
  induction os generalizing client with
  | nil => exact hc
  | cons o os ih => exact ih (next_paired hc o)

/-- In every life of a socket, an event is served and refused as its token's expiry asks, unless it
is an event of `CallsGateway` and the token has expired. -/
theorem events_heed_expiry (id : String) (token : Option String) (os : List Occurrence) (e : Event) (nowMs : ℕ)
    (a : Answers) : ((fresh id token).after os).Heeds nowMs a e ↔
      ¬ (e.ofCalls = true ∧ isTokenExpired ((fresh id token).after os).data nowMs = true) := by
  have hpaired : ((fresh id token).after os).data.Paired := after_paired (fun _ => rfl) os
  generalize (fresh id token).after os = client at hpaired
  by_cases ht : isTokenExpired client.data nowMs = true
  · obtain ⟨user,hu⟩ : ∃ user, client.data.user = some user := by
      refine Option.ne_none_iff_exists'.mp fun hn => ?_
      simp [isTokenExpired,hpaired hn] at ht
    cases he : e.ofCalls with
    | true =>
      have hno : ¬ (client.serve nowMs a e).Refuses (client.data.user.map (·.id)) := calls_not_refused hu he
      exact ⟨fun h => absurd (h.2 ht) hno,fun h => absurd ⟨rfl,ht⟩ h⟩
    | false =>
      have hr : (client.serve nowMs a e).Refuses (client.data.user.map (·.id)) := others_refused hu ht he
      exact ⟨fun _ h => by simp at h,fun _ => ⟨fun hs => absurd hs hr.2,fun _ => hr⟩⟩
  · have hf : isTokenExpired client.data nowMs = false := by simpa using ht
    exact ⟨fun _ h => ht h.2,fun _ => ⟨fun _ => hf,fun h => absurd h ht⟩⟩

/-! Ada rings Bob an hour after her token has expired. -/

def ada : SocketUser := ⟨"00000000-0000-4000-8000-00000000000a","ada"⟩

def bobId : RawId := "00000000-0000-4000-8000-00000000000b"

def bobIsFree : (c : Command) → Except Thrown c.Result
  | .checkRateLimit _ _ => .ok true
  | .getActiveCall _ => .ok none
  | .isOnline _ => .ok true
  | .createCallLog _ _ _ _ _ => .ok "log"
  | .createCall initiatorId targetId callLogId => .ok ⟨"call",initiatorId,targetId,.ringing,0,some callLogId⟩
  | _ => .error .other

theorem bobIsFree_bare (c : Command) (t : Thrown) (ht : bobIsFree c = .error t) : t.bare = true := by
  cases c <;> cases ht <;> rfl

def answers : Answers where
  validate _ _ := .error "Invalid payload"
  verify _ := .ok ⟨ada.id,some 3600⟩
  activeUser _ := .ok (some ada)
  answer := bobIsFree
  bare c t _ ht := bobIsFree_bare c t ht
  later := 7200000

def adaRings : Event := .callInvite (.object [("targetUserId",.text bobId)])

def adaConnected : Client := (fresh "socket" (some "token")).after [.connection answers]

theorem expired_invite_served : isTokenExpired adaConnected.data 7200000 = true ∧
    (adaConnected.serve 7200000 answers adaRings).ack =
      some (.success [("callId",.text "call"),("callLogId",.text "log")]) ∧
        ¬ adaConnected.Heeds 7200000 answers adaRings := by
  have hack : (adaConnected.serve 7200000 answers adaRings).ack =
      some (.success [("callId",.text "call"),("callLogId",.text "log")]) := by decide +kernel
  have ht : isTokenExpired adaConnected.data 7200000 = true := by decide +kernel
  refine ⟨ht,hack,fun h => ?_⟩
  have := h.1 (.inr ⟨_,hack,rfl⟩)
  simp [ht] at this

end ZevraServer.SocketEvents
