import ZevraServer.Interleaving
import Mathlib.Data.List.Basic

/-!
# Typing timers

`typing:start` stops the timer of its socket and channel, waits for Redis and then stores a
new one, which ends the indicator after some seconds. `typing:stop` and the timer itself
remove the stored one at once, and a disconnect removes those of its socket. Of a socket and
a channel at most one timer runs, and none once the disconnect is handled, as long as
nothing has been stored, and the disconnect has not begun, while a `typing:start` waits.
-/

namespace ZevraServer.Typing

open Interleaving

/-- `${socketId}|${channelId}`. -/
abbrev Key := ℕ × String

/-- A timer that was started; `running` says that it has neither fired nor been cleared. -/
structure Timer where
  key : Key
  user : ℕ
  running : Bool
  deriving DecidableEq, Repr

inductive Event
  | typingStart (user : ℕ) (channelId : String)
  | typingStop (user : ℕ) (channelId : String)
  deriving DecidableEq, Repr

/-- The map of one node, every timer it has started, and what it has emitted. -/
structure World where
  typingTimeouts : List (Key × ℕ)
  timers : List Timer
  emitted : List Event
  deriving DecidableEq, Repr

namespace World

variable (w : World)

def get (k : Key) : Option ℕ := (w.typingTimeouts.find? fun e => e.1 = k).map (·.2)

def delete (k : Key) : World :=
  { w with typingTimeouts := w.typingTimeouts.filter fun e => e.1 ≠ k }

/-- A key that is there keeps its place. -/
def set (k : Key) (t : ℕ) : World :=
  { w with typingTimeouts :=
      if w.typingTimeouts.any fun e => e.1 = k then
        w.typingTimeouts.map fun e => if e.1 = k then (k,t) else e
      else w.typingTimeouts++[(k,t)] }

def clearTimeout (t : ℕ) : World :=
  { w with timers := w.timers.modify t fun x => { x with running := false } }

def stopTyping (user : ℕ) (channelId : String) : World :=
  { w with emitted := w.emitted++[.typingStop user channelId] }

/-- What `typing:start` does after its last `await`. -/
def startTimer (k : Key) (user : ℕ) : World :=
  World.set { w with
    emitted := w.emitted++[.typingStart user k.2]
    timers := w.timers++[⟨k,user,true⟩] } k w.timers.length

/-- The callback of a timer. -/
def fire (t : ℕ) : Option World :=
  match w.timers[t]? with
  | none => none
  | some x =>
    if x.running then some (((w.clearTimeout t).delete x.key).stopTyping x.user x.key.2) else none

/-- One turn of the loop over the map. -/
def clearEntry (s : ℕ) (user : Option ℕ) (w : World) (e : Key × ℕ) : World :=
  if e.1.1 = s then
    let w := (w.clearTimeout e.2).delete e.1
    match user with
    | none => w
    | some u => w.stopTyping u e.1.2
  else w

def clearTypingFor (s : ℕ) (user : Option ℕ) : World :=
  w.typingTimeouts.foldl (clearEntry s user) w

end World

/-- Whether what a handler waited for lets it go on. -/
structure Choice where
  passes : Bool
  deriving DecidableEq, Repr

/-- `handleTypingStart` of a valid payload, at its `await`s. -/
inductive Start
  | limit (k : Key) (user : ℕ)
  | member (k : Key) (user : ℕ)
  | setTyping (k : Key) (user : ℕ)
  | done
  | failed
  deriving DecidableEq, Repr

def Start.step (ch : Choice) (w : World) : Start → Option (Start × World)
  | .limit k u => some (if ch.passes then .member k u else .failed,w)
  | .member k u =>
    if ch.passes then
      some (.setTyping k u,match w.get k with
        | none => w
        | some t => w.clearTimeout t)
    else some (.failed,w)
  | .setTyping k u => some (.done,w.startTimer k u)
  | .done => none
  | .failed => none

/-- `handleTypingStop`. -/
inductive Stop
  | limit (k : Key) (user : ℕ)
  | member (k : Key) (user : ℕ)
  | done
  | failed
  deriving DecidableEq, Repr

def Stop.step (ch : Choice) (w : World) : Stop → Option (Stop × World)
  | .limit k u => some (if ch.passes then .member k u else .failed,w)
  | .member k u =>
    if ch.passes then
      let w := match w.get k with
        | none => w
        | some t => (w.clearTimeout t).delete k
      some (.done,w.stopTyping u k.2)
    else some (.failed,w)
  | .done => none
  | .failed => none

/-- `handleDisconnect`: the timers go before the first `await`. -/
inductive Disconnect
  | begin (s : ℕ) (user : Option ℕ)
  | removeSocket (s : ℕ)
  | setOffline (s : ℕ)
  | peers (s : ℕ)
  | done (s : ℕ)
  deriving DecidableEq, Repr

namespace Disconnect

def socket : Disconnect → ℕ
  | .begin s _ => s
  | .removeSocket s => s
  | .setOffline s => s
  | .peers s => s
  | .done s => s

def begun : Disconnect → Bool
  | .begin _ _ => false
  | _ => true

/-- `passes` at `removeSocket` says that no socket of the user remains. -/
def step (ch : Choice) (w : World) : Disconnect → Option (Disconnect × World)
  | .begin s user =>
    some (if user.isSome then .removeSocket s else .done s,w.clearTypingFor s user)
  | .removeSocket s => some (if ch.passes then .setOffline s else .done s,w)
  | .setOffline s => some (.peers s,w)
  | .peers s => some (.done s,w)
  | .done _ => none

end Disconnect

inductive Call
  | start (q : Start)
  | stop (q : Stop)
  | disconnect (q : Disconnect)
  deriving DecidableEq, Repr

def Call.step (ch : Choice) (w : World) : Call → Option (Call × World)
  | .start q => (q.step ch w).map fun r => (.start r.1,r.2)
  | .stop q => (q.step ch w).map fun r => (.stop r.1,r.2)
  | .disconnect q => (q.step ch w).map fun r => (.disconnect r.1,r.2)

/-- The handlers of one node; the environment lets a timer fire. -/
def node : System World Call Choice ℕ where
  step _ q ch w := q.step ch w
  env t w := w.fire t

abbrev State := Config World Call

abbrev Action := Label Call Choice ℕ

/-- Events come from sockets that are connected. -/
def Connected (c : State) (s : ℕ) : Prop :=
  ∀ (r : ℕ) q, c.pool[r]? = some (.disconnect q) → q.socket ≠ s

def Arrives (c : State) : Action → Prop
  | .spawn (.start (.limit k _)) => Connected c k.1
  | .spawn (.stop (.limit k _)) => Connected c k.1
  | .spawn (.disconnect (.begin s _)) => Connected c s
  | .spawn _ => False
  | _ => True

def World.Running (w : World) (t : ℕ) (k : Key) : Prop :=
  ∃ x, w.timers[t]? = some x ∧ x.key = k ∧ x.running = true

/-- A `typing:start` stores its timer when the one in its place does not run and the disconnect of
its socket has not begun. -/
def StoresAlone (c : State) (l : Action) : Prop :=
  Arrives c l ∧ ∀ (p : ℕ) ch k u, l = .run p ch → c.pool[p]? = some (.start (.setTyping k u)) →
    (∀ t, c.world.get k = some t → ¬c.world.Running t k) ∧
    ∀ (r : ℕ) q, c.pool[r]? = some (.disconnect q) → q.begun = true → q.socket ≠ k.1

variable {w w' : World} {k k' : Key} {t t' s user : ℕ} {c d : State} {ch : Choice}

/-! ### The map and the timers -/

namespace World

@[simp] theorem get_clearTimeout (w : World) (t : ℕ) (k : Key) : (w.clearTimeout t).get k = w.get k := rfl

@[simp] theorem get_stopTyping (w : World) (u : ℕ) (c : String) (k : Key) :
    (w.stopTyping u c).get k = w.get k := rfl

theorem get_delete (w : World) (k k' : Key) : (w.delete k).get k' = if k' = k then none else w.get k' := by
  simp only [get,delete,List.find?_filter]
  split_ifs with he
  · subst he
    simp
  · congr 2
    funext e
    by_cases hk : e.1 = k'
    · simp [hk,he]
    · simp [hk]

/-- Replacing a value leaves the keys alone. -/
theorem find?_entry (l : List (Key × ℕ)) (k k' : Key) (t : ℕ) :
    l.find? ((fun e => decide (e.1 = k')) ∘ fun e => if e.1 = k then (k,t) else e) =
      l.find? fun e => decide (e.1 = k') := by
  congr 1
  funext e
  simp only [Function.comp_apply]
  split_ifs with he
  · rw [he]
  · rfl

theorem get_set (w : World) (k k' : Key) (t : ℕ) :
    (w.set k t).get k' = if k' = k then some t else w.get k' := by
  simp only [get,set]
  split_ifs with hany he he
  · subst he
    obtain ⟨e,he,hk⟩ := List.any_eq_true.mp hany
    have hfind : (w.typingTimeouts.find? fun e => decide (e.1 = k')).isSome = true :=
      List.find?_isSome.mpr ⟨e,he,hk⟩
    obtain ⟨f,hf⟩ := Option.isSome_iff_exists.mp hfind
    have hfk : f.1 = k' := by simpa using List.find?_some hf
    rw [List.find?_map,find?_entry,hf]
    simp [hfk]
  · rw [List.find?_map,find?_entry]
    cases hf : w.typingTimeouts.find? fun e => decide (e.1 = k') with
    | none => rfl
    | some f =>
      have hfk : f.1 = k' := by simpa using List.find?_some hf
      simp [hfk,he]
  · subst he
    have hnone : (w.typingTimeouts.find? fun e => decide (e.1 = k')) = none := by
      refine List.find?_eq_none.mpr fun e he hk => hany (List.any_eq_true.mpr ⟨e,he,hk⟩)
    simp [List.find?_append,hnone]
  · rw [List.find?_append,List.find?_cons_of_neg (by simpa using Ne.symm he)]
    simp

theorem running_clearTimeout : (w.clearTimeout t).Running t' k ↔ t' ≠ t ∧ w.Running t' k := by
  simp only [Running,clearTimeout,List.getElem?_modify]
  constructor
  · rintro ⟨x,hx,hk,hrun⟩
    obtain ⟨y,hy,rfl⟩ := Option.map_eq_some_iff.mp hx
    by_cases he : t = t'
    · simp [he] at hrun
    · simp only [if_neg he] at hk hrun
      exact ⟨Ne.symm he,y,hy,hk,hrun⟩
  · rintro ⟨hne,x,hx,hk,hrun⟩
    exact ⟨x,by simp [hx,Ne.symm hne],hk,hrun⟩

@[simp] theorem running_delete : (w.delete k').Running t k ↔ w.Running t k := Iff.rfl

@[simp] theorem running_stopTyping {u : ℕ} {c : String} : (w.stopTyping u c).Running t k ↔ w.Running t k :=
  Iff.rfl

theorem running_startTimer : (w.startTimer k' user).Running t k ↔
    w.Running t k ∨ t = w.timers.length ∧ k = k' := by
  simp only [Running,startTimer,set]
  constructor
  · rintro ⟨x,hx,rfl,hrun⟩
    rw [List.getElem?_append] at hx
    split at hx
    · exact .inl ⟨x,hx,rfl,hrun⟩
    · rename_i hle
      have hzero : t-w.timers.length = 0 := by
        have hlt := (List.getElem?_eq_some_iff.mp hx).1
        simp only [List.length_singleton] at hlt
        omega
      rw [hzero] at hx
      obtain rfl := Option.some.inj hx
      exact .inr ⟨by omega,rfl⟩
  · rintro (⟨x,hx,hk,hrun⟩ | ⟨rfl,rfl⟩)
    · exact ⟨x,by rw [List.getElem?_append_left (List.getElem?_eq_some_iff.mp hx).1]; exact hx,hk,hrun⟩
    · exact ⟨⟨k,user,true⟩,by simp,rfl,rfl⟩

end World

/-- Every running timer is the one in its place. -/
def Tidy (w : World) : Prop := ∀ t k, w.Running t k → w.get k = some t

/-- No timer runs that did not run before. -/
def Fewer (w w' : World) : Prop := ∀ t k, w'.Running t k → w.Running t k

theorem tidy_clear (h : Tidy w) (t : ℕ) : Tidy (w.clearTimeout t) :=
  fun t' k hr => h t' k (World.running_clearTimeout.mp hr).2

theorem fewer_clear (w : World) (t : ℕ) : Fewer w (w.clearTimeout t) :=
  fun _ _ hr => (World.running_clearTimeout.mp hr).2

/-- The timer in a place may go together with its entry. -/
theorem tidy_remove (h : Tidy w) (hk : w.get k = some t) : Tidy ((w.clearTimeout t).delete k) := by
  intro t' k' hr
  obtain ⟨hne,hr⟩ := World.running_clearTimeout.mp (World.running_delete.mp hr)
  have hget := h t' k' hr
  rw [World.get_delete,World.get_clearTimeout]
  split_ifs with he
  · subst he
    exact absurd (Option.some.inj (hget.symm.trans hk)) hne
  · exact hget

theorem fewer_remove (w : World) (k : Key) (t : ℕ) : Fewer w ((w.clearTimeout t).delete k) :=
  fun _ _ hr => (World.running_clearTimeout.mp (World.running_delete.mp hr)).2

theorem tidy_start (h : Tidy w) (hk : ∀ t, w.get k = some t → ¬w.Running t k) (user : ℕ) :
    Tidy (w.startTimer k user) := by
  intro t k' hr
  have hget : (w.startTimer k user).get k' = if k' = k then some w.timers.length else w.get k' :=
    World.get_set _ k k' _
  rw [hget]
  rcases World.running_startTimer.mp hr with hbefore | ⟨rfl,rfl⟩
  · have hold := h t k' hbefore
    split_ifs with he
    · subst he
      exact absurd hbefore (hk t hold)
    · exact hold
  · exact if_pos rfl

/-- A timer that fires runs no more, and takes the entry of its place along. -/
theorem fire_tidy (h : Tidy w) (hf : w.fire t = some w') : Tidy w' ∧ Fewer w w' := by
  unfold World.fire at hf
  split at hf
  · simp at hf
  · rename_i x hx
    split_ifs at hf with hrun
    obtain rfl := Option.some.inj hf
    have hplace := h t x.key ⟨x,hx,rfl,hrun⟩
    exact ⟨tidy_remove h hplace,fewer_remove w x.key t⟩

theorem clearEntry_spec (s : ℕ) (user : Option ℕ) (w : World) (e : Key × ℕ) :
    (∀ t k, (World.clearEntry s user w e).Running t k → w.Running t k ∧ (e.1.1 = s → e.2 ≠ t)) ∧
    ∀ k, k.1 ≠ s → (World.clearEntry s user w e).get k = w.get k := by
  by_cases hs : e.1.1 = s
  · have hworld : (∀ t k, (World.clearEntry s user w e).Running t k ↔
        ((w.clearTimeout e.2).delete e.1).Running t k) ∧
        ∀ k, (World.clearEntry s user w e).get k = ((w.clearTimeout e.2).delete e.1).get k := by
      unfold World.clearEntry
      rw [if_pos hs]
      cases user with
      | none => exact ⟨fun _ _ => Iff.rfl,fun _ => rfl⟩
      | some u => exact ⟨fun _ _ => Iff.rfl,fun _ => rfl⟩
    refine ⟨fun t k hr => ?_,fun k hk => ?_⟩
    · obtain ⟨hne,hr⟩ := World.running_clearTimeout.mp (World.running_delete.mp ((hworld.1 t k).mp hr))
      exact ⟨hr,fun _ => hne.symm⟩
    · rw [hworld.2 k,World.get_delete,World.get_clearTimeout,if_neg]
      rintro rfl
      exact hk hs
  · unfold World.clearEntry
    rw [if_neg hs]
    exact ⟨fun t k hr => ⟨hr,fun he => absurd he hs⟩,fun _ _ => rfl⟩

theorem clearEntries_spec (s : ℕ) (user : Option ℕ) (l : List (Key × ℕ)) (w : World) :
    (∀ t k, (l.foldl (World.clearEntry s user) w).Running t k →
      w.Running t k ∧ ∀ e ∈ l, e.1.1 = s → e.2 ≠ t) ∧
    ∀ k, k.1 ≠ s → (l.foldl (World.clearEntry s user) w).get k = w.get k := by
  induction l generalizing w with
  | nil => exact ⟨fun t k hr => ⟨hr,by simp⟩,fun _ _ => rfl⟩
  | cons e l ih =>
    obtain ⟨hrun,hget⟩ := ih (World.clearEntry s user w e)
    obtain ⟨hrun',hget'⟩ := clearEntry_spec s user w e
    refine ⟨fun t k hr => ?_,fun k hk => (hget k hk).trans (hget' k hk)⟩
    obtain ⟨hr,hl⟩ := hrun t k hr
    obtain ⟨hr,he⟩ := hrun' t k hr
    exact ⟨hr,List.forall_mem_cons.mpr ⟨he,hl⟩⟩

/-- A disconnect stops the timers of its socket and leaves the others. -/
theorem clearTypingFor_tidy (h : Tidy w) (s : ℕ) (user : Option ℕ) :
    Tidy (w.clearTypingFor s user) ∧ Fewer w (w.clearTypingFor s user) ∧
      ∀ t c, ¬(w.clearTypingFor s user).Running t (s,c) := by
  obtain ⟨hrun,hget⟩ := clearEntries_spec s user w.typingTimeouts w
  have hgone : ∀ t c, ¬(w.clearTypingFor s user).Running t (s,c) := fun t c hr => by
    obtain ⟨hr,hall⟩ := hrun t (s,c) hr
    obtain ⟨e,he,ht⟩ := Option.map_eq_some_iff.mp (h t (s,c) hr)
    have hkey : e.1 = (s,c) := by simpa using List.find?_some he
    exact hall e (List.mem_of_find?_eq_some he) (by rw [hkey]) ht
  refine ⟨fun t k hr => ?_,fun t k hr => (hrun t k hr).1,hgone⟩
  have hne : k.1 ≠ s := by
    rintro rfl
    exact hgone t k.2 hr
  exact (hget k hne).trans (h t k (hrun t k hr).1)

/-! ### One step -/

/-- What a handler does to the timers between two of its `await`s. -/
theorem Start.step_tidy {q q' : Start} (h : Tidy w) (hs : q.step ch w = some (q',w'))
    (hq : ∀ k u, q = .setTyping k u → ∀ t, w.get k = some t → ¬w.Running t k) : Tidy w' ∧
      (Fewer w w' ∨ ∃ k u, q = .setTyping k u ∧ w' = w.startTimer k u) := by
  cases q with
  | limit k u =>
    obtain ⟨_,rfl⟩ := Prod.mk.inj (Option.some.inj hs)
    exact ⟨h,.inl fun _ _ hr => hr⟩
  | member k u =>
    simp only [step] at hs
    split_ifs at hs
    · obtain ⟨_,rfl⟩ := Prod.mk.inj (Option.some.inj hs)
      cases w.get k with
      | none => exact ⟨h,.inl fun _ _ hr => hr⟩
      | some t => exact ⟨tidy_clear h t,.inl (fewer_clear w t)⟩
    · obtain ⟨_,rfl⟩ := Prod.mk.inj (Option.some.inj hs)
      exact ⟨h,.inl fun _ _ hr => hr⟩
  | setTyping k u =>
    obtain ⟨_,rfl⟩ := Prod.mk.inj (Option.some.inj hs)
    exact ⟨tidy_start h (hq k u rfl) u,.inr ⟨k,u,rfl,rfl⟩⟩
  | done => simp [step] at hs
  | failed => simp [step] at hs

theorem Stop.step_tidy {q q' : Stop} (h : Tidy w) (hs : q.step ch w = some (q',w')) :
    Tidy w' ∧ Fewer w w' := by
  cases q with
  | limit k u =>
    obtain ⟨_,rfl⟩ := Prod.mk.inj (Option.some.inj hs)
    exact ⟨h,fun _ _ hr => hr⟩
  | member k u =>
    simp only [step] at hs
    split_ifs at hs
    · obtain ⟨_,rfl⟩ := Prod.mk.inj (Option.some.inj hs)
      cases hk : w.get k with
      | none => exact ⟨h,fun _ _ hr => hr⟩
      | some t => exact ⟨tidy_remove h hk,fewer_remove w k t⟩
    · obtain ⟨_,rfl⟩ := Prod.mk.inj (Option.some.inj hs)
      exact ⟨h,fun _ _ hr => hr⟩
  | done => simp [step] at hs
  | failed => simp [step] at hs

theorem Disconnect.step_tidy {q q' : Disconnect} (h : Tidy w) (hs : q.step ch w = some (q',w')) :
    Tidy w' ∧ Fewer w w' ∧ q'.socket = q.socket ∧
      (q.begun = true ∨ ∀ t c, ¬w'.Running t (q.socket,c)) := by
  cases q with
  | begin s user =>
    obtain ⟨rfl,rfl⟩ := Prod.mk.inj (Option.some.inj hs)
    obtain ⟨htidy,hfewer,hgone⟩ := clearTypingFor_tidy h s user
    refine ⟨htidy,hfewer,?_,.inr hgone⟩
    split <;> rfl
  | removeSocket s =>
    obtain ⟨rfl,rfl⟩ := Prod.mk.inj (Option.some.inj hs)
    refine ⟨h,fun _ _ hr => hr,?_,.inl rfl⟩
    split <;> rfl
  | setOffline s =>
    obtain ⟨rfl,rfl⟩ := Prod.mk.inj (Option.some.inj hs)
    exact ⟨h,fun _ _ hr => hr,rfl,.inl rfl⟩
  | peers s =>
    obtain ⟨rfl,rfl⟩ := Prod.mk.inj (Option.some.inj hs)
    exact ⟨h,fun _ _ hr => hr,rfl,.inl rfl⟩
  | done s => simp [step] at hs

/-! ### Runs -/

/-- The timers are tidy, and none of a socket runs once its disconnect has begun. -/
structure Kept (c : State) : Prop where
  tidy : Tidy c.world
  gone : ∀ (p : ℕ) q, c.pool[p]? = some (.disconnect q) → q.begun = true →
    ∀ t ch, ¬c.world.Running t (q.socket,ch)

theorem Kept.next {l : Action} (h : Kept c) (hl : StoresAlone c l) (hn : node.next c l = some d) :
    Kept d := by
  cases l with
  | spawn q =>
    obtain rfl := Option.some.inj hn
    refine ⟨h.tidy,fun p q' hp hb => ?_⟩
    rcases pool_append hp with ⟨_,hp⟩ | ⟨_,rfl⟩
    · exact h.gone p q' hp hb
    · cases q' with
      | begin s u => simp [Disconnect.begun] at hb
      | _ => exact hl.1.elim
  | env t =>
    obtain ⟨w,hw,rfl⟩ := node.next_env hn
    obtain ⟨htidy,hfewer⟩ := fire_tidy h.tidy hw
    exact ⟨htidy,fun p q hp hb t c hr => h.gone p q hp hb t c (hfewer _ _ hr)⟩
  | run p ch =>
    obtain ⟨q,q',w,hq,hs,rfl⟩ := node.next_run hn
    cases q with
    | start q =>
      obtain ⟨r,hr,he⟩ := Option.map_eq_some_iff.mp hs
      obtain ⟨rfl,rfl⟩ := Prod.mk.inj he
      obtain ⟨htidy,hmove⟩ := Start.step_tidy h.tidy hr fun k u he => (hl.2 p ch k u rfl (he ▸ hq)).1
      refine ⟨htidy,fun i s hi hb t c hrun => ?_⟩
      obtain ⟨_,he⟩ | ⟨_,hi⟩ := pool_set hi
      · simp at he
      · rcases hmove with hfewer | ⟨k,u,rfl,hw⟩
        · exact h.gone i s hi hb t c (hfewer _ _ hrun)
        · rw [hw] at hrun
          rcases World.running_startTimer.mp hrun with hrun | ⟨_,hk⟩
          · exact h.gone i s hi hb t c hrun
          · exact (hl.2 p ch k u rfl hq).2 i s hi hb (congrArg Prod.fst hk)
    | stop q =>
      obtain ⟨r,hr,he⟩ := Option.map_eq_some_iff.mp hs
      obtain ⟨rfl,rfl⟩ := Prod.mk.inj he
      obtain ⟨htidy,hfewer⟩ := Stop.step_tidy h.tidy hr
      refine ⟨htidy,fun i s hi hb t c hrun => ?_⟩
      obtain ⟨_,he⟩ | ⟨_,hi⟩ := pool_set hi
      · simp at he
      · exact h.gone i s hi hb t c (hfewer _ _ hrun)
    | disconnect q =>
      obtain ⟨r,hr,he⟩ := Option.map_eq_some_iff.mp hs
      obtain ⟨rfl,rfl⟩ := Prod.mk.inj he
      obtain ⟨htidy,hfewer,hsocket,hgone⟩ := Disconnect.step_tidy h.tidy hr
      refine ⟨htidy,fun i s hi hb t c hrun => ?_⟩
      obtain ⟨rfl,he⟩ | ⟨_,hi⟩ := pool_set hi
      · obtain rfl := Call.disconnect.inj he
        rw [hsocket] at hrun
        rcases hgone with hbegun | hgone
        · exact h.gone i q hq hbegun t c (hfewer _ _ hrun)
        · exact hgone t c hrun
      · exact h.gone i s hi hb t c (hfewer _ _ hrun)

def noTimers : World := ⟨[],[],[]⟩

/-- In every run in which each `typing:start` stores its timer alone, every running timer is the one
stored under its key, and none runs for a socket whose disconnect is handled. -/
theorem one_typing_timer (h : Run node StoresAlone ⟨noTimers,[]⟩ c) :
    (∀ t k, c.world.Running t k → c.world.get k = some t) ∧
    ∀ (p : ℕ) s, c.pool[p]? = some (.disconnect (.done s)) → ∀ t ch, ¬c.world.Running t (s,ch) := by
  have hkept : Kept c := by
    refine h.invariant ⟨fun t k hr => ?_,by simp⟩ fun a l b _ ha hl hn => ha.next hl hn
    obtain ⟨x,hx,_⟩ := hr
    simp [noTimers] at hx
  exact ⟨hkept.tidy,fun p s hp => hkept.gone p _ hp rfl⟩

/-! ### Concrete runs -/

def through : Choice := ⟨true⟩

/-- `typing:start` of a socket of user 1 in channel `c` as call `p`, up to where it waits for Redis. -/
def starting (p s : ℕ) : List Action :=
  [.spawn (.start (.limit (s,"c") 1)),.run p through,.run p through]

/-- The whole `handleDisconnect` of the user's last socket. -/
def disconnecting (p s : ℕ) : List Action :=
  .spawn (.disconnect (.begin s (some 1)))::List.replicate 4 (.run p through)

def connected (c : State) (s : ℕ) : Bool :=
  c.pool.all fun
    | .disconnect q => q.socket ≠ s
    | _ => true

def arrives (c : State) : Action → Bool
  | .spawn (.start (.limit k _)) => connected c k.1
  | .spawn (.stop (.limit k _)) => connected c k.1
  | .spawn (.disconnect (.begin s _)) => connected c s
  | .spawn _ => false
  | _ => true

def storesAlone (c : State) (l : Action) : Bool :=
  arrives c l && match l with
    | .run p _ =>
      match c.pool[p]? with
      | some (.start (.setTyping k _)) =>
        (match c.world.get k with
          | none => true
          | some t => c.world.timers[t]?.all fun x => !x.running) &&
        c.pool.all fun
          | .disconnect q => !q.begun || q.socket ≠ k.1
          | _ => true
      | _ => true
    | _ => true

theorem connected_sound {c : State} {s : ℕ} (h : connected c s = true) : Connected c s := by
  intro r q hr
  simpa using List.all_eq_true.mp h _ (List.mem_of_getElem? hr)

theorem arrives_sound (c : State) (l : Action) (h : arrives c l = true) : Arrives c l := by
  unfold arrives at h
  split at h
  · exact connected_sound h
  · exact connected_sound h
  · exact connected_sound h
  · simp at h
  · rename_i hspawn
    cases l with
    | spawn q => exact absurd rfl (hspawn q)
    | run p ch => trivial
    | env t => trivial

theorem storesAlone_sound (c : State) (l : Action) (h : storesAlone c l = true) : StoresAlone c l := by
  obtain ⟨harr,halone⟩ := Bool.and_eq_true_iff.mp h
  refine ⟨arrives_sound c l harr,?_⟩
  rintro p ch k u rfl hp
  simp only [hp,Bool.and_eq_true] at halone
  obtain ⟨hplace,hsocket⟩ := halone
  refine ⟨fun t ht => ?_,fun r q hr hb => ?_⟩
  · rintro ⟨x,hx,_,hrun⟩
    rw [ht] at hplace
    simp only [hx,Option.all_some,hrun] at hplace
    exact absurd hplace (by decide)
  · have hq := List.all_eq_true.mp hsocket _ (List.mem_of_getElem? hr)
    simpa [hb] using hq

/-- A second `typing:start` replaces the timer of the first, and the socket disconnects. -/
def replaced : List Action :=
  starting 0 7++[.run 0 through]++starting 1 7++[.run 1 through]++disconnecting 2 7

theorem one_typing_timer_replaced : ∃ c, Run node StoresAlone ⟨noTimers,[]⟩ c ∧ c.world.timers.length = 2 ∧
    c.pool[2]? = some (.disconnect (.done 7)) ∧ ¬c.world.Running 1 (7,"c") := by
  obtain ⟨c,hc,hf⟩ := Run.exists_of_exec (S := node) (c := ⟨noTimers,[]⟩) storesAlone_sound replaced
    (f := fun c => (c.world.timers.length,c.pool[2]?)) (v := (2,some (.disconnect (.done 7))))
    (by decide +kernel)
  obtain ⟨htimers,hdone⟩ := Prod.mk.inj hf
  exact ⟨c,hc,htimers,hdone,(one_typing_timer hc).2 2 7 hdone 1 "c"⟩

/-- Two `typing:start` of one socket wait for Redis at the same time. -/
def overlapping : List Action := starting 0 7++starting 1 7++[.run 0 through,.run 1 through]

/-- The socket disconnects while its `typing:start` waits. -/
def disconnected : List Action :=
  starting 0 7++disconnecting 1 7++[.run 0 through]

/-- Two timers run for one key, and one runs for a socket whose disconnect is handled. -/
theorem two_typing_timers :
    (∃ c, Run node Arrives ⟨noTimers,[]⟩ c ∧ ¬∀ t k, c.world.Running t k → c.world.get k = some t) ∧
    ∃ c, Run node Arrives ⟨noTimers,[]⟩ c ∧
      ¬∀ (p : ℕ) s, c.pool[p]? = some (.disconnect (.done s)) → ∀ t ch, ¬c.world.Running t (s,ch) := by
  constructor
  · obtain ⟨c,hc,hf⟩ := Run.exists_of_exec (S := node) (c := ⟨noTimers,[]⟩) arrives_sound overlapping
      (f := fun c => (c.world.timers,c.world.get (7,"c")))
      (v := ([⟨(7,"c"),1,true⟩,⟨(7,"c"),1,true⟩],some 1)) (by decide +kernel)
    obtain ⟨htimers,hget⟩ := Prod.mk.inj hf
    refine ⟨c,hc,fun h => ?_⟩
    have hzero := h 0 (7,"c") ⟨⟨(7,"c"),1,true⟩,by rw [htimers]; rfl,rfl,rfl⟩
    rw [hget] at hzero
    simp at hzero
  · obtain ⟨c,hc,hf⟩ := Run.exists_of_exec (S := node) (c := ⟨noTimers,[]⟩) arrives_sound disconnected
      (f := fun c => (c.world.timers,c.pool[1]?))
      (v := ([⟨(7,"c"),1,true⟩],some (.disconnect (.done 7)))) (by decide +kernel)
    obtain ⟨htimers,hdone⟩ := Prod.mk.inj hf
    exact ⟨c,hc,fun h => h 1 7 hdone 0 "c" ⟨⟨(7,"c"),1,true⟩,by rw [htimers]; rfl,rfl,rfl⟩⟩

end ZevraServer.Typing
