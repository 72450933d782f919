import ZevraServer.Archives

/-!
# Posting rights

`send` checks the membership and the flag in its first query and locks the channel row later,
without looking again. From the lock to the commit nobody else changes the row or the members
of the channel, so a sender who may still post when the row is locked may post when the
message is committed.
-/

namespace ZevraServer.Posting

open ReadCommitted Interleaving

/-- The user is a member of the channel, and the channel is not archived. -/
def MayPost (db : Db) (u c : Uuid) : Prop :=
  db.HasMember u c ∧ ∃ r ∈ db.channels, r.id = c ∧ r.isArchived = false

instance (db : Db) (u c : Uuid) : Decidable (MayPost db u c) :=
  inferInstanceAs (Decidable ((∃ m ∈ db.members, m.userId = u ∧ m.channelId = c) ∧
    ∃ r ∈ db.channels, r.id = c ∧ r.isArchived = false))

/-- A `send` locks the channel row while its sender may post there. -/
def LocksInTime (a : Config World Call) (l : Label Call Choice Event) : Prop :=
  Arrives a l ∧ ∀ (p : ℕ) ch s, l = .run p ch → a.pool[p]? = some (.server (.send (.lock s))) →
    MayPost a.world.pg.db s.input.userId s.input.channelId

/-- The attempt of a `send` that holds the lock. -/
def locked? : Send → Option SendAttempt
  | .maxSeq a => some a
  | .insert a _ => some a
  | .lastMessage a _ => some a
  | .lastRead a _ => some a
  | .commit a _ => some a
  | _ => none

/-- Every sender who holds the lock of a channel may post there. -/
def Entitled (a : Config World Call) : Prop :=
  ∀ (p : ℕ) q s, a.pool[p]? = some (.server (.send q)) → locked? q = some s →
    MayPost a.world.pg.db s.input.userId s.input.channelId

variable {x : Externals} {p : ℕ} {ch : Choice} {w w' : World} {pg pg' : Postgres} {d e : Db} {u c : Uuid}
  {a b : Config World Call} {l : Label Call Choice Event}

/-! ### While the lock is held -/

theorem MayPost.frozen (h : MayPost d u c) (hi : Integrity d) (hf : Frozen c d e) : MayPost e u c := by
  obtain ⟨hmem,r,hr,rfl,hopen⟩ := h
  refine ⟨?_,?_⟩
  · rw [Db.hasMember_iff_roster,hf.roster,← Db.hasMember_iff_roster]
    exact hmem
  · have hrow : e.channel? r.id = some r := hf.channel.trans (hi.channel?_of_mem hr)
    obtain ⟨hr',_⟩ := Db.of_channel? hrow
    exact ⟨r,hr',rfl,hopen⟩

theorem open_of_locked {q : Send} {s : SendAttempt} (h : q.Assert p pg) (hq : locked? q = some s) :
    ∃ ws, Open pg p s.input.channelId ws := by
  cases q with
  | maxSeq a =>
    obtain rfl := Option.some.inj hq
    exact ⟨_,h⟩
  | insert a seq =>
    obtain rfl := Option.some.inj hq
    exact ⟨_,h.1⟩
  | lastMessage a msg =>
    obtain rfl := Option.some.inj hq
    exact ⟨_,h.1⟩
  | lastRead a msg =>
    obtain rfl := Option.some.inj hq
    exact ⟨_,h.1⟩
  | commit a msg =>
    obtain rfl := Option.some.inj hq
    obtain ⟨_,_,ho,_⟩ := h
    exact ⟨_,ho⟩
  | _ => simp [locked?] at hq

theorem MayPost.rely {q : Send} {s : SendAttempt} (h : MayPost pg.db s.input.userId s.input.channelId)
    (hi : Integrity pg.db) (hass : q.Assert p pg) (hq : locked? q = some s)
    (hr : (discipline x).Rely p pg pg') : MayPost pg'.db s.input.userId s.input.channelId := by
  obtain ⟨ws,ho⟩ := open_of_locked hass hq
  exact h.frozen hi (ho.frozen hr)

/-- A call comes to hold the lock by the step that takes it, and keeps it with its attempt. -/
theorem locked_came {q q' : Send} {s : SendAttempt} (h : q.step x p ch w = some (q',w'))
    (hq : locked? q' = some s) : q = .lock s ∨ locked? q = some s ∧ ∀ t m, q ≠ .commit t m := by
  have hedge := Send.edge h
  cases hedge with
  | locked =>
    obtain rfl := Option.some.inj hq
    exact .inl rfl
  | numbered seq => exact .inr ⟨hq,by simp⟩
  | inserted id => exact .inr ⟨hq,by simp⟩
  | pointed => exact .inr ⟨hq,by simp⟩
  | read => exact .inr ⟨hq,by simp⟩
  | snapshot =>
    unfold Send.joinLookup at hq
    split at hq <;> simp [locked?] at hq
  | members =>
    unfold Send.joinLookup at hq
    split at hq <;> simp [locked?] at hq
  | _ => simp [locked?] at hq

/-- The tables stay as they are while the call keeps the lock. -/
theorem db_of_locked {q q' : Send} {s : SendAttempt} (hs : Sane w.pg) (hass : q.Assert p w.pg)
    (h : q.step x p ch w = some (q',w')) (hq : locked? q' = some s) : w'.pg.db = w.pg.db := by
  rcases (Send.own hs hass h).1.change with he | hc
  · exact he
  · cases q with
    | commit t m =>
      rcases locked_came h hq with he | ⟨_,hne⟩
      · simp at he
      · exact absurd rfl (hne t m)
    | _ => exact hc.elim

/-! ### Runs -/

theorem Call.send_of_step {q : Call} {s : Send} (hs : q.step x p ch w = some (.server (.send s),w')) :
    ∃ t, q = .server (.send t) ∧ t.step x p ch w = some (s,w') := by
  cases q with
  | server q =>
    obtain ⟨⟨q',v⟩,ht,he⟩ := Option.map_eq_some_iff.mp hs
    obtain ⟨hq,rfl⟩ := Prod.mk.inj he
    obtain rfl := Call.server.inj hq
    cases q with
    | send t =>
      obtain ⟨s',hm,he⟩ := ZevraServer.Call.of_step ht
      obtain rfl := ZevraServer.Call.send.inj he
      exact ⟨t,rfl,hm⟩
    | _ =>
      obtain ⟨s',_,he⟩ := ZevraServer.Call.of_step ht
      simp at he
  | archive q =>
    obtain ⟨_,_,he⟩ := Option.map_eq_some_iff.mp hs
    simp at he

theorem Entitled.next (hv : (outline x).Valid a) (h : Entitled a) (hl : LocksInTime a l)
    (hn : (posting x).next a l = some b) : Entitled b := by
  cases l with
  | spawn q =>
    obtain rfl := Option.some.inj hn
    intro r t s hr ht
    rcases pool_append hr with ⟨_,hr⟩ | ⟨_,rfl⟩
    · exact h r t s hr ht
    · have hinit : Call.Initial (.server (.send t)) := hl.1
      cases hinit with
      | server hq =>
        cases hq
        simp [locked?] at ht
  | run p ch =>
    obtain ⟨q,q',w,hq,hs,rfl⟩ := (posting x).next_run hn
    intro r t s hr ht
    rcases pool_set hr with ⟨rfl,rfl⟩ | ⟨hne,hr⟩
    · obtain ⟨t',rfl,hstep⟩ := Call.send_of_step hs
      have hass : t'.Assert r a.world.pg := hv.holds r _ hq
      have hdb := db_of_locked hv.inv hass hstep ht
      show MayPost w.pg.db _ _
      rw [hdb]
      rcases locked_came hstep ht with rfl | ⟨ht',_⟩
      · exact hl.2 r ch s rfl hq
      · exact h r t' s hq ht'
    · obtain ⟨_,hguar,_⟩ := Call.own hv.inv (hv.holds p q hq) hs
      have hass : t.Assert r a.world.pg := hv.holds r _ hr
      exact (h r t s hr ht).rely hv.inv.integrity hass ht (hguar r hne)
  | env f =>
    obtain ⟨w,hw,rfl⟩ := (posting x).next_env hn
    obtain rfl := Option.some.inj hw
    intro r t s hr ht
    simp only [Event.apply_pg]
    exact h r t s hr ht

/-- A message row that was not there before the step. -/
def NewMessage (d e : Db) (m : MessageRow) : Prop := m ∈ e.messages ∧ ∀ r ∈ d.messages, r.id ≠ m.id

/-- Only the commit of a `send` adds a message. -/
theorem Call.Changes.sent {q : Call} (h : q.Changes d e) {m : MessageRow} (hm : NewMessage d e m) :
    ∃ s, q = .server (.send (.commit s m)) ∧ Sent m d e := by
  have hsame : ∀ {es : List MessageRow}, e.messages = es → es = d.messages → False := by
    rintro _ rfl he
    exact hm.2 m (by rw [← he]; exact hm.1) rfl
  cases h with
  | nothing h => exact (hsame rfl (by rw [h])).elim
  | archived c v h => exact (hsame rfl (by rw [h]; rfl)).elim
  | server t hq h =>
    have hmem := hm.1
    rcases h.cases with ⟨s,msg,he,hc⟩ | ⟨i,c,_,hc⟩ | ⟨_,_,_,_,hc⟩ | ⟨_,_,_,_,hc⟩ | ⟨_,_,_,_,hc⟩
    · rw [hc.messages] at hmem
      rcases List.mem_append.mp hmem with hold | hnew
      · exact absurd rfl (hm.2 m hold)
      · obtain rfl := List.mem_singleton.mp hnew
        exact ⟨s,by rw [hq,he],hc⟩
    · rw [hc.messages] at hmem
      obtain ⟨r,hr,rfl⟩ := List.mem_map.mp hmem
      exact absurd (by simp) (hm.2 r hr)
    · exact (hsame rfl hc.messages).elim
    · exact (hsame rfl hc.messages).elim
    · exact (hsame rfl hc.messages).elim

theorem MayPost.sent {m : MessageRow} (hs : Sent m d e) (h : MayPost d u c) : MayPost e u c := by
  obtain ⟨hmem,r,hr,hid,hopen⟩ := h
  refine ⟨(Db.hasMember_congr hs.members u c).mpr hmem,r.point m.channelId (some m.id) (some m.createdAt),
    ?_,by simpa using hid,?_⟩
  · rw [hs.channels]
    exact List.mem_map_of_mem hr
  · unfold ChannelRow.point
    split <;> exact hopen

theorem LocksInTime.valid (hw : Start w) (h : Run (posting x) LocksInTime ⟨w,[]⟩ a) :
    (outline x).Valid a :=
  (outline x).sound hw.sane hw.idle (h.mono fun _ _ hl => hl.1)

theorem LocksInTime.entitled (hw : Start w) (h : Run (posting x) LocksInTime ⟨w,[]⟩ a) : Entitled a := by
  refine h.invariant (fun _ _ _ hp _ => by simp at hp) fun b l c hr hb hl hn => ?_
  exact hb.next (LocksInTime.valid hw hr) hl hn

/-- In every run in which each `send` locks its channel while its sender may post there, every
message is committed in a state in which its sender is a member of the channel and the channel is
not archived. -/
theorem posting_rights_at_commit (x : Externals) {w : World} (hw : Start w) {a b : Config World Call}
    {l : Label Call Choice Event} (h : Run (posting x) LocksInTime ⟨w,[]⟩ a) (hl : LocksInTime a l)
    (hn : (posting x).next a l = some b) (m : MessageRow) (hm : NewMessage a.world.pg.db b.world.pg.db m) :
    MayPost b.world.pg.db m.senderId m.channelId := by
  have hv := LocksInTime.valid hw h
  cases l with
  | spawn q =>
    obtain rfl := Option.some.inj hn
    exact absurd rfl (hm.2 m hm.1)
  | run p ch =>
    obtain ⟨q,q',w',hq,hs,rfl⟩ := (posting x).next_run hn
    obtain ⟨_,_,_,hchange⟩ := Call.own hv.inv (hv.holds p q hq) hs
    obtain ⟨s,rfl,hsent⟩ := hchange.sent hm
    obtain ⟨_,_,_,hnum⟩ : (Send.commit s m).Assert p a.world.pg := hv.holds p _ hq
    have hmay := (LocksInTime.entitled hw h p _ s hq rfl).sent hsent
    rw [hnum.row]
    exact hmay
  | env f =>
    obtain ⟨w',hw',rfl⟩ := (posting x).next_env hn
    obtain rfl := Option.some.inj hw'
    have hmem := hm.1
    simp only [Event.apply_pg] at hmem
    exact absurd rfl (hm.2 m hmem)

def arrives (_ : Config World Call) : Label Call Choice Event → Bool
  | .spawn (.server q) => q.isInitial
  | .spawn (.archive (.role _)) => true
  | .spawn _ => false
  | _ => true

theorem arrives_sound (a : Config World Call) (l : Label Call Choice Event) (h : arrives a l = true) :
    Arrives a l := by
  unfold arrives at h
  split at h
  · exact .server (ZevraServer.Call.initial_of_isInitial h)
  · exact .archive _
  · simp at h
  · rename_i hspawn
    cases l with
    | spawn q => exact absurd rfl (hspawn q)
    | run p ch => trivial
    | env e => trivial

def locksInTime (a : Config World Call) (l : Label Call Choice Event) : Bool :=
  arrives a l && match l with
    | .run p _ =>
      match a.pool[p]? with
      | some (.server (.send (.lock s))) => MayPost a.world.pg.db s.input.userId s.input.channelId
      | _ => true
    | _ => true

theorem locksInTime_sound (a : Config World Call) (l : Label Call Choice Event)
    (h : locksInTime a l = true) : LocksInTime a l := by
  obtain ⟨harr,hlock⟩ := Bool.and_eq_true_iff.mp h
  refine ⟨arrives_sound a l harr,?_⟩
  rintro p ch s rfl hp
  simpa [hp] using hlock

/-- A `send` of ben up to its lock, and from there to its commit. -/
def checking (p : ℕ) : List (Label Call Choice Event) :=
  .spawn (.server (.send (.check (note 2 10 "hi") none)))::List.replicate 2 (.run p calm)

def inserting (p : ℕ) : List (Label Call Choice Event) :=
  List.replicate 2 (.run p calm)++.run p (drawing [20])::List.replicate 2 (.run p calm)

def archiving (p : ℕ) : List (Label Call Choice Event) :=
  .spawn (.archive (.role ⟨10,1⟩))::List.replicate 3 (.run p calm)

/-- The message of that `send`. -/
def hi : MessageRow := (SendAttempt.mk (note 2 10 "hi") none "ben" 0 5).row 20 1

/-- The channel is archived only after the lock was released. -/
theorem posting_rights_at_commit_alone : ∃ a b, Run (posting plain) LocksInTime ⟨smallWorld,[]⟩ a ∧
    (posting plain).next a (.run 0 calm) = some b ∧ b.world.pg.db.messages = [hi] ∧
    MayPost b.world.pg.db 2 10 := by
  obtain ⟨a,ha,hf⟩ := Run.exists_of_exec (S := posting plain) (c := ⟨smallWorld,[]⟩) locksInTime_sound
    (checking 0++inserting 0)
    (f := fun a => ((posting plain).next a (.run 0 calm)).map fun b =>
      (locksInTime a (.run 0 calm),a.world.pg.db.messages,b.world.pg.db.messages))
    (v := some (true,[],[hi])) (by decide +kernel)
  obtain ⟨b,hn,hb⟩ := Option.map_eq_some_iff.mp hf
  simp only [Prod.mk.injEq] at hb
  obtain ⟨hl,hnone,hmsg⟩ := hb
  have hnew : NewMessage a.world.pg.db b.world.pg.db hi := ⟨by simp [hmsg],by simp [hnone]⟩
  exact ⟨a,b,ha,hn,hmsg,posting_rights_at_commit plain smallWorld_start ha
    (locksInTime_sound a _ hl) hn hi hnew⟩

/-- Ada archives the channel between the check and the lock of a `send`, and the message is committed
in the archived channel. -/
theorem posted_to_archive : ∃ a b m, Run (posting plain) Arrives ⟨smallWorld,[]⟩ a ∧
    (posting plain).next a (.run 0 calm) = some b ∧ NewMessage a.world.pg.db b.world.pg.db m ∧
    ¬ MayPost b.world.pg.db m.senderId m.channelId := by
  obtain ⟨a,ha,hf⟩ := Run.exists_of_exec (S := posting plain) (c := ⟨smallWorld,[]⟩) arrives_sound
    (checking 0++archiving 1++inserting 0)
    (f := fun a => ((posting plain).next a (.run 0 calm)).map fun b =>
      (a.world.pg.db.messages,b.world.pg.db.messages,decide (MayPost b.world.pg.db 2 10)))
    (v := some ([],[hi],false)) (by decide +kernel)
  obtain ⟨b,hn,hb⟩ := Option.map_eq_some_iff.mp hf
  simp only [Prod.mk.injEq,decide_eq_false_iff_not] at hb
  obtain ⟨hnone,hmsg,hnot⟩ := hb
  exact ⟨a,b,hi,ha,hn,⟨by simp [hmsg],by simp [hnone]⟩,hnot⟩

end ZevraServer.Posting
