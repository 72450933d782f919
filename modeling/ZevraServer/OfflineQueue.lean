import ZevraServer.Delivery

/-!
# The offline queue

`addPendingMessage` queues a message for users who are offline, and `popPendingMessages`
first reads a batch and then removes it by value, so that other calls may run between the
two. What was queued stays queued until a call that returns it has removed it.
-/

namespace ZevraServer.Offline

open Interleaving

/-- `ZRANGE key 0 stop`, where a negative `stop` counts from the end. -/
def zRange (set : List (ℕ × MessagePayload)) (stop : ℤ) : List MessagePayload :=
  (set.take ((if stop < 0 then set.length+stop else stop)+1).toNat).map (·.2)

/-- A call between its commands. `popped` has executed its `MULTI` and returns its batch with the
count it read; `empty` has found nothing in the queue, and like `failed` returns no messages and
`remaining: 0`. -/
inductive Call
  | add (userIds : List Uuid) (m : MessagePayload)
  | added (userIds : List Uuid) (m : MessagePayload)
  | range (u : Uuid) (limit : ℕ)
  | remove (u : Uuid) (raw : List MessagePayload)
  | popped (u : Uuid) (raw : List MessagePayload) (count : ℕ)
  | empty (u : Uuid)
  | failed
  deriving DecidableEq, Repr

namespace Call

def step (ch : Choice) (r : Redis) : Call → Option (Call × Redis)
  | .add us m =>
    if ch.fail then some (.failed,r)
    else some (.added us m,r.addPendingMessage us (pendingScore ch m) m)
  | .range u limit =>
    let raw := zRange (r.pending u) (limit-1)
    if ch.fail then some (.failed,r)
    else if raw.isEmpty then some (.empty u,r)
    else some (.remove u raw,r)
  | .remove u raw =>
    if ch.fail then some (.failed,r)
    else some (.popped u raw ((r.removePending u raw).pending u).length,r.removePending u raw)
  | .added _ _ => none
  | .popped _ _ _ => none
  | .empty _ => none
  | .failed => none

/-- A call before its first command. -/
def start : Call → Bool
  | .add _ _ => true
  | .range _ _ => true
  | _ => false

end Call

/-- The calls of all sockets and jobs over one Redis. -/
def queue : System Redis Call Choice Empty where
  step _ q ch r := q.step ch r
  env e _ := e.elim

abbrev State := Config Redis Call

abbrev Action := Label Call Choice Empty

/-- Calls begin at their first command. -/
def Begins (_ : State) : Action → Prop
  | .spawn q => q.start = true
  | _ => True

/-- The same, while no message is queued. -/
def Quiet (c : State) : Action → Prop
  | .spawn q => q.start = true
  | .run p ch => ∀ us m, c.pool[p]? = some (.add us m) → ch.fail = true
  | .env _ => True

def Queued (r : Redis) (u : Uuid) (m : MessagePayload) : Prop := ∃ score, (score,m) ∈ r.pending u

/-- A call that has executed its `ZREM` returns the message. -/
def Returned (c : State) (u : Uuid) (m : MessagePayload) : Prop :=
  ∃ (p : ℕ) (raw : List MessagePayload) (n : ℕ), c.pool[p]? = some (.popped u raw n) ∧ m ∈ raw

/-- The same for a call that had not executed it at an earlier state. -/
def ReturnedSince (c d : State) (u : Uuid) (m : MessagePayload) : Prop :=
  ∃ (p : ℕ) (raw : List MessagePayload) (n : ℕ), d.pool[p]? = some (.popped u raw n) ∧ m ∈ raw ∧
    c.pool[p]? ≠ some (.popped u raw n)

/-- A client calls again as long as the answer says that more messages remain. -/
inductive Rounds (u : Uuid) : ℕ → State → State → Prop
  | none (c : State) : Rounds u 0 c c
  | again {c d e : State} {n p k : ℕ} {raw : List MessagePayload} : Rounds u n c d →
      Run queue Quiet d e → d.pool.length ≤ p → e.pool[p]? = some (.popped u raw (k+1)) →
      Rounds u (n+1) c e

variable {r r' : Redis} {q q' : Call} {ch : Choice} {u v : Uuid} {m k : MessagePayload} {c d e : State}

/-! ### One command -/

theorem queued_add (h : Queued r u m) (us : List Uuid) (score : ℕ) (k : MessagePayload) :
    Queued (r.addPendingMessage us score k) u m := by
  obtain ⟨s,hs⟩ := h
  simp only [Queued,Redis.addPendingMessage]
  split
  · exact Redis.mem_zAdd_of_mem hs
  · exact ⟨s,hs⟩

theorem queued_added {us : List Uuid} (hu : u ∈ us) (r : Redis) (score : ℕ) (m : MessagePayload) :
    Queued (r.addPendingMessage us score m) u m := by
  refine ⟨score,?_⟩
  simp only [Redis.addPendingMessage,if_pos hu]
  exact (List.mem_orderedInsert _).mpr (.inl rfl)

theorem queued_remove {raw : List MessagePayload} :
    Queued (r.removePending v raw) u m ↔ Queued r u m ∧ ¬(u = v ∧ m ∈ raw) := by
  simp only [Queued,Redis.removePending,Function.update_apply]
  by_cases hu : u = v
  · subst hu
    simp [List.mem_filter]
  · simp [hu]

/-- What a command does. -/
inductive Call.Moves (ch : Choice) (r : Redis) : Call → Call → Redis → Prop
  | fails (q : Call) : Moves ch r q .failed r
  | adds (us : List Uuid) (m : MessagePayload) (hf : ch.fail = false) :
      Moves ch r (.add us m) (.added us m) (r.addPendingMessage us (pendingScore ch m) m)
  | finds (u : Uuid) (limit : ℕ) (h : zRange (r.pending u) (limit-1) ≠ []) :
      Moves ch r (.range u limit) (.remove u (zRange (r.pending u) (limit-1))) r
  | misses (u : Uuid) (limit : ℕ) (h : zRange (r.pending u) (limit-1) = []) :
      Moves ch r (.range u limit) (.empty u) r
  | pops (u : Uuid) (raw : List MessagePayload) :
      Moves ch r (.remove u raw) (.popped u raw ((r.removePending u raw).pending u).length)
        (r.removePending u raw)

theorem Call.step_moves (hs : q.step ch r = some (q',r')) : q.Moves ch r q' r' := by
  cases q with
  | add us m =>
    simp only [Call.step] at hs
    split_ifs at hs with hf <;> obtain ⟨rfl,rfl⟩ := Prod.mk.inj (Option.some.inj hs)
    · exact .fails _
    · exact .adds us m (by simpa using hf)
  | range u limit =>
    simp only [Call.step] at hs
    split_ifs at hs with hf hnil <;> obtain ⟨rfl,rfl⟩ := Prod.mk.inj (Option.some.inj hs)
    · exact .fails _
    · exact .misses u limit (List.isEmpty_iff.mp hnil)
    · exact .finds u limit fun h => hnil (List.isEmpty_iff.mpr h)
  | remove u raw =>
    simp only [Call.step] at hs
    split_ifs at hs <;> obtain ⟨rfl,rfl⟩ := Prod.mk.inj (Option.some.inj hs)
    · exact .fails _
    · exact .pops u raw
  | added us m => simp [Call.step] at hs
  | popped u raw n => simp [Call.step] at hs
  | empty u => simp [Call.step] at hs
  | failed => simp [Call.step] at hs

/-- A command keeps a queued message, or is the `ZREM` of a call that returns it. -/
theorem Call.Moves.queued (hs : q.Moves ch r q' r') (h : Queued r u m) :
    Queued r' u m ∨ ∃ raw n, q = .remove u raw ∧ q' = .popped u raw n ∧ m ∈ raw := by
  cases hs with
  | fails => exact .inl h
  | adds us k hf => exact .inl (queued_add h us _ k)
  | finds v limit hraw => exact .inl h
  | misses v limit hraw => exact .inl h
  | pops v raw =>
    by_cases hm : u = v ∧ m ∈ raw
    · obtain ⟨rfl,hm⟩ := hm
      exact .inr ⟨raw,_,rfl,rfl,hm⟩
    · exact .inl (queued_remove.mpr ⟨h,hm⟩)

/-- A call that has ended stays as it is. -/
theorem ended_next {l : Action} {p : ℕ} (hn : queue.next c l = some d) (hp : c.pool[p]? = some q)
    (hq : ∀ ch r, q.step ch r = none) : d.pool[p]? = some q := by
  cases l with
  | spawn s =>
    obtain rfl := Option.some.inj hn
    simp only
    rw [List.getElem?_append_left (List.getElem?_eq_some_iff.mp hp).1]
    exact hp
  | run i ch =>
    obtain ⟨s,s',w,hi,hs,rfl⟩ := queue.next_run hn
    by_cases he : i = p
    · subst he
      obtain rfl := Option.some.inj (hi.symm.trans hp)
      exact absurd hs (by simp [queue,hq])
    · rw [List.getElem?_set_ne he]
      exact hp
  | env e => exact e.elim

/-! ### Runs -/

theorem popped_stays (h : Run queue Begins c d) {p : ℕ} {raw : List MessagePayload} {n : ℕ}
    (hp : c.pool[p]? = some (.popped u raw n)) : d.pool[p]? = some (.popped u raw n) := by
  refine h.invariant (I := fun d => d.pool[p]? = some (Call.popped u raw n)) hp
    fun a l b _ ha _ hn => ?_
  exact ended_next hn ha fun _ _ => rfl

theorem Returned.next {l : Action} (hn : queue.next c l = some d) (h : Returned c u m) :
    Returned d u m := by
  obtain ⟨p,raw,n,hp,hm⟩ := h
  exact ⟨p,raw,n,ended_next hn hp fun _ _ => rfl,hm⟩

/-- One step keeps a queued message, or lets the call that removes it return it. -/
theorem queued_next {l : Action} (hn : queue.next c l = some d) (h : Queued c.world u m) :
    Queued d.world u m ∨ ∃ (p : ℕ) (ch : Choice) (raw : List MessagePayload) (n : ℕ), l = .run p ch ∧
      c.pool[p]? = some (.remove u raw) ∧ d.pool[p]? = some (.popped u raw n) ∧ m ∈ raw := by
  cases l with
  | spawn q =>
    obtain rfl := Option.some.inj hn
    exact .inl h
  | run p ch =>
    obtain ⟨q,q',w,hq,hs,rfl⟩ := queue.next_run hn
    rcases (Call.step_moves hs).queued h with h | ⟨raw,n,rfl,rfl,hm⟩
    · exact .inl h
    · exact .inr ⟨p,ch,raw,n,rfl,hq,
        List.getElem?_set_self (List.getElem?_eq_some_iff.mp hq).1,hm⟩
  | env e => exact e.elim

/-- What is queued stays queued until a later `ZREM` returns it. -/
theorem queued_run (h : Run queue Begins c d) (hm : Queued c.world u m) :
    Queued d.world u m ∨ ReturnedSince c d u m := by
  refine h.invariant (I := fun d => Queued d.world u m ∨ ReturnedSince c d u m) (.inl hm)
    fun a l b hr ha _ hn => ?_
  rcases ha with ha | ⟨p,raw,n,hp,hmem,hnew⟩
  · rcases queued_next hn ha with hb | ⟨p,ch,raw,n,rfl,hp,hp',hmem⟩
    · exact .inl hb
    · refine .inr ⟨p,raw,n,hp',hmem,fun hc => ?_⟩
      have hstill := popped_stays hr hc
      rw [hp] at hstill
      simp at hstill
  · exact .inr ⟨p,raw,n,ended_next hn hp fun _ _ => rfl,hmem,hnew⟩

/-- The message of every executed `ZADD` is queued or was returned. -/
theorem added_run (h : Run queue Begins ⟨r,[]⟩ d) {p : ℕ} {us : List Uuid}
    (hp : d.pool[p]? = some (.added us m)) (hu : u ∈ us) : Queued d.world u m ∨ Returned d u m := by
  refine h.invariant (I := fun d => ∀ p : ℕ, d.pool[p]? = some (Call.added us m) →
    Queued d.world u m ∨ Returned d u m) (by simp) (fun a l b _ ha hl hn p hp => ?_) p hp
  have hold : a.pool[p]? = some (.added us m) → Queued b.world u m ∨ Returned b u m := fun hp => by
    rcases ha p hp with hq | hq
    · rcases queued_next hn hq with hb | ⟨i,_,raw,n,_,_,hi,hm⟩
      · exact .inl hb
      · exact .inr ⟨i,raw,n,hi,hm⟩
    · exact .inr (hq.next hn)
  cases l with
  | spawn q =>
    obtain rfl := Option.some.inj hn
    rcases pool_append hp with ⟨_,hp⟩ | ⟨_,rfl⟩
    · exact hold hp
    · simp [Begins,Call.start] at hl
  | run i ch =>
    obtain ⟨q,q',w,hq,hs,rfl⟩ := queue.next_run hn
    rcases pool_set hp with ⟨rfl,rfl⟩ | ⟨_,hp⟩
    · refine .inl ?_
      cases Call.step_moves hs with
      | adds us m hf => exact queued_added hu _ _ m
    · exact hold hp
  | env e => exact e.elim

/-! ### The answers -/

theorem zRange_eq_nil {set : List (ℕ × MessagePayload)} {limit : ℕ}
    (h : zRange set (limit-1) = []) : set = [] := by
  by_contra hne
  have hpos : 0 < set.length := List.length_pos_of_ne_nil hne
  have hlen := congrArg List.length h
  simp only [zRange,List.length_map,List.length_take,List.length_nil] at hlen
  split_ifs at hlen <;> omega

/-- A pop that reports nothing left has left nothing. -/
theorem Call.Moves.emptied (hs : q.Moves ch r q' r')
    (hq : (∃ raw, q' = .popped u raw 0) ∨ q' = .empty u) : r'.pending u = [] := by
  cases hs with
  | fails => simp at hq
  | adds us k hf => simp at hq
  | finds v limit hraw => simp at hq
  | misses v limit hraw =>
    obtain rfl : v = u := by simpa using hq
    exact zRange_eq_nil hraw
  | pops v raw =>
    rcases hq with ⟨raw',he⟩ | he
    · obtain ⟨rfl,_,hzero⟩ := Call.popped.inj he
      exact List.length_eq_zero_iff.mp hzero
    · simp at he

theorem emptied_next {p : ℕ} (hn : queue.next c (.run p ch) = some d)
    (hp : (∃ raw, d.pool[p]? = some (.popped u raw 0)) ∨ d.pool[p]? = some (.empty u)) :
    d.world.pending u = [] := by
  obtain ⟨q,q',w,hq,hs,rfl⟩ := queue.next_run hn
  have hself : (c.pool.set p q')[p]? = some q' :=
    List.getElem?_set_self (List.getElem?_eq_some_iff.mp hq).1
  refine (Call.step_moves hs).emptied ?_
  simp only [hself,Option.some.injEq] at hp
  exact hp

/-! ### A client that calls again -/

/-- While no message is queued the queue only shrinks. -/
theorem Call.Moves.shrinks (hs : q.Moves ch r q' r') (hq : ∀ us m, q = .add us m → ch.fail = true)
    (u : Uuid) : (r'.pending u).Sublist (r.pending u) := by
  cases hs with
  | fails => exact List.Sublist.refl _
  | adds us k hf => simp [hq us k rfl] at hf
  | finds v limit hraw => exact List.Sublist.refl _
  | misses v limit hraw => exact List.Sublist.refl _
  | pops v raw =>
    by_cases hu : u = v
    · subst hu
      simp [Redis.removePending]
    · simp [Redis.removePending,hu]

/-- What a call that began after `c` knows of its batch: it was queued at `c`, and is no longer
once it is popped. -/
def Call.Knows (r₀ r : Redis) : Call → Prop
  | .remove u raw => raw ≠ [] ∧ ∀ m ∈ raw, Queued r₀ u m
  | .popped u raw _ => raw ≠ [] ∧ ∀ m ∈ raw, Queued r₀ u m ∧ ¬Queued r u m
  | _ => True

theorem mem_zRange {set : List (ℕ × MessagePayload)} {stop : ℤ} (h : m ∈ zRange set stop) :
    ∃ score, (score,m) ∈ set := by
  obtain ⟨x,hx,rfl⟩ := List.mem_map.mp h
  exact ⟨x.1,List.mem_of_mem_take hx⟩

theorem Call.Moves.knows {r₀ : Redis} (hs : q.Moves ch r q' r') (hk : q.Knows r₀ r)
    (hsub : ∀ u, (r.pending u).Sublist (r₀.pending u)) : q'.Knows r₀ r' := by
  cases hs with
  | fails => trivial
  | adds us k hf => trivial
  | finds v limit hraw =>
    refine ⟨hraw,fun m hm => ?_⟩
    obtain ⟨score,hscore⟩ := mem_zRange hm
    exact ⟨score,(hsub v).subset hscore⟩
  | misses v limit hraw => trivial
  | pops v raw =>
    exact ⟨hk.1,fun m hm => ⟨hk.2 m hm,fun hq => (queued_remove.mp hq).2 ⟨rfl,hm⟩⟩⟩

theorem Call.Knows.mono {r₀ : Redis} (h : q.Knows r₀ r)
    (hsub : ∀ u, (r'.pending u).Sublist (r.pending u)) : q.Knows r₀ r' := by
  cases q with
  | popped v raw n =>
    refine ⟨h.1,fun m hm => ⟨(h.2 m hm).1,fun hq => (h.2 m hm).2 ?_⟩⟩
    obtain ⟨score,hscore⟩ := hq
    exact ⟨score,(hsub v).subset hscore⟩
  | remove v raw => exact h
  | add us k => trivial
  | added us k => trivial
  | range v limit => trivial
  | empty v => trivial
  | failed => trivial

theorem quiet_run (h : Run queue Quiet c d) : (∀ u, (d.world.pending u).Sublist (c.world.pending u)) ∧
    ∀ p q, c.pool.length ≤ p → d.pool[p]? = some q → q.Knows c.world d.world := by
  refine h.invariant (I := fun d => (∀ u, (d.world.pending u).Sublist (c.world.pending u)) ∧
    ∀ p q, c.pool.length ≤ p → d.pool[p]? = some q → q.Knows c.world d.world)
    ⟨fun _ => List.Sublist.refl _,fun p q hle hp => ?_⟩ fun a l b _ ha hl hn => ?_
  · have hlt := (List.getElem?_eq_some_iff.mp hp).1
    omega
  · obtain ⟨hsub,hknows⟩ := ha
    cases l with
    | spawn s =>
      obtain rfl := Option.some.inj hn
      refine ⟨hsub,fun p q hle hp => ?_⟩
      rcases pool_append hp with ⟨_,hp⟩ | ⟨_,rfl⟩
      · exact hknows p q hle hp
      · cases q with
        | add us k => trivial
        | range v limit => trivial
        | _ => simp [Quiet,Call.start] at hl
    | run i ch =>
      obtain ⟨q,q',w,hq,hs,rfl⟩ := queue.next_run hn
      have hstep : ∀ u, (w.pending u).Sublist (a.world.pending u) :=
        (Call.step_moves hs).shrinks fun us m he => hl us m (he ▸ hq)
      refine ⟨fun u => (hstep u).trans (hsub u),fun p s hle hp => ?_⟩
      rcases pool_set hp with ⟨rfl,rfl⟩ | ⟨_,hp⟩
      · exact (Call.step_moves hs).knows (hknows p q hle hq) hsub
      · exact (hknows p s hle hp).mono hstep
    | env e => exact e.elim

/-- A whole call that reports more messages has made the queue shorter. -/
theorem round_shrinks (h : Run queue Quiet c d) {p : ℕ} {raw : List MessagePayload} {n : ℕ}
    (hle : c.pool.length ≤ p) (hp : d.pool[p]? = some (.popped u raw n)) :
    (d.world.pending u).length < (c.world.pending u).length := by
  obtain ⟨hsub,hknows⟩ := quiet_run h
  obtain ⟨hne,hraw⟩ := hknows p _ hle hp
  obtain ⟨m,hm⟩ := List.exists_mem_of_ne_nil raw hne
  obtain ⟨⟨score,hthen⟩,hnow⟩ := hraw m hm
  refine Nat.lt_of_le_of_ne (hsub u).length_le fun heq => hnow ⟨score,?_⟩
  rw [(hsub u).eq_of_length heq]
  exact hthen

theorem Rounds.bounded {n : ℕ} (h : Rounds u n c d) :
    n+(d.world.pending u).length ≤ (c.world.pending u).length := by
  induction h with
  | none c => omega
  | again _ hrun hle hp ih =>
    have hlt := round_shrinks hrun hle hp
    omega

/-- What was queued is queued or was returned, no call takes out more than it returns, a call
that reports nothing left has left nothing, and calling again comes to an end once nothing is
queued any more. -/
theorem queue_loses_nothing {r : Redis} {c d : State} (h : Run queue Begins ⟨r,[]⟩ c)
    (h' : Run queue Begins c d) :
    (∀ u m, Queued c.world u m → Queued d.world u m ∨ ReturnedSince c d u m) ∧
    (∀ (p : ℕ) (us : List Uuid) (m : MessagePayload) (u : Uuid), d.pool[p]? = some (.added us m) →
      u ∈ us → Queued d.world u m ∨ Returned d u m) ∧
    (∀ l e u m, queue.next d l = some e → Queued d.world u m → ¬Queued e.world u m →
      ∃ (p : ℕ) (ch : Choice) (raw : List MessagePayload) (n : ℕ), l = .run p ch ∧
        e.pool[p]? = some (.popped u raw n) ∧ m ∈ raw) ∧
    (∀ (p : ℕ) (ch : Choice) (e : State) (u : Uuid), queue.next d (.run p ch) = some e →
      (∃ raw, e.pool[p]? = some (.popped u raw 0)) ∨ e.pool[p]? = some (.empty u) →
      e.world.pending u = []) ∧
    ∀ u n e, Rounds u n d e → n+(e.world.pending u).length ≤ (d.world.pending u).length := by
  refine ⟨fun u m => queued_run h',fun p us m u => added_run (h.trans h'),fun l e u m hn hq hgone => ?_,
    fun p ch e u => emptied_next,fun u n e => Rounds.bounded⟩
  rcases queued_next hn hq with hstill | ⟨p,ch,raw,n,hl,_,hp,hm⟩
  · exact absurd hstill hgone
  · exact ⟨p,ch,raw,n,hl,hp,hm⟩

def begins (_ : State) : Action → Bool
  | .spawn q => q.start
  | _ => true

theorem begins_sound (c : State) (l : Action) (h : begins c l = true) : Begins c l := by
  cases l with
  | spawn q => exact h
  | run p ch => trivial
  | env e => trivial

def nobody : Redis := ⟨fun _ => [],fun _ => [],fun _ _ => 0,fun _ => []⟩

/-- Two sockets read the same message before either removes it. -/
def readTwice : List Action :=
  [.spawn (.add [2] (posted 1 50 "ada" 1 "hi")),.run 0 calm,.spawn (.range 2 100),.run 1 calm,
    .spawn (.range 2 100),.run 2 calm,.run 2 calm]

theorem queue_loses_nothing_twice : ∃ d : State, Run queue Begins ⟨nobody,[]⟩ d ∧
    d.pool[1]? = some (.remove 2 [posted 1 50 "ada" 1 "hi"]) ∧ d.world.pending 2 = [] ∧
    (Queued d.world 2 (posted 1 50 "ada" 1 "hi") ∨ Returned d 2 (posted 1 50 "ada" 1 "hi")) := by
  obtain ⟨d,hd,hf⟩ := Run.exists_of_exec (S := queue) (c := ⟨nobody,[]⟩)
    begins_sound readTwice
    (f := fun d => (d.pool[0]?,d.pool[1]?,d.world.pending 2))
    (v := (some (.added [2] (posted 1 50 "ada" 1 "hi")),
      some (.remove 2 [posted 1 50 "ada" 1 "hi"]),[])) (by decide +kernel)
  simp only [Prod.mk.injEq] at hf
  obtain ⟨hadded,hremove,hempty⟩ := hf
  exact ⟨d,hd,hremove,hempty,(queue_loses_nothing hd (.refl d)).2.1 0 _ _ 2 hadded (by simp)⟩

end ZevraServer.Offline
