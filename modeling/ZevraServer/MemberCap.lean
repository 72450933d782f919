import ZevraServer.Edges

/-!
# The member cap

A channel has at most `MAX_CHANNEL_PARTICIPANTS + 1` members, as long as no `addMember`
takes the last free place of a channel while another one that has already counted its
members is about to insert. `create` bounds its list of participants; `addMember` counts in
one statement and inserts in another, without the lock that `removeMember` takes.
-/

namespace ZevraServer

open ReadCommitted Interleaving

/-- No channel has more members than the cap. -/
def Capped (db : Db) : Prop := ∀ c, (db.membershipsOf c).length ≤ MAX_CHANNEL_PARTICIPANTS+1

/-- An `addMember` leaves room for every other one that has counted the same channel. -/
def LeavesRoom (d : Server) (l : Action) : Prop :=
  Arrives d l ∧ ∀ (p : ℕ) ch a, l = .run p ch → d.pool[p]? = some (.addMember (.insert a)) →
    ∀ (r : ℕ) b, r ≠ p → d.pool[r]? = some (.addMember (.insert b)) → b.channelId = a.channelId →
      (d.world.pg.db.membershipsOf a.channelId).length < MAX_CHANNEL_PARTICIPANTS

variable {db db' : Db} {c : Uuid}

theorem Db.length_roster (db : Db) (c : Uuid) : (db.roster c).length = (db.membershipsOf c).length := by
  rw [Db.roster_of_membershipsOf,List.length_map]

/-! ### What a commit does to the number of members -/

theorem Db.length_of_members (h : db'.members = db.members) (c : Uuid) :
    (db'.membershipsOf c).length = (db.membershipsOf c).length := by
  rw [← Db.length_roster,← Db.length_roster,Db.roster_congr h]

theorem Created.length {a : CreateArgs} {d : Uuid} {ids : List Uuid} (hi : Integrity db)
    (h : Created a d ids db db') (c : Uuid) : (db'.membershipsOf c).length =
      if c = d then a.others.length+1 else (db.membershipsOf c).length := by
  rw [← Db.length_roster,← Db.length_roster]
  by_cases he : c = d
  · subst he
    have hnil := hi.roster_eq_nil h.fresh
    have hall : (a.membershipRows c ids).filter (fun r => r.channelId = c) = a.membershipRows c ids := by
      refine List.filter_eq_self.mpr fun r hr => ?_
      have hkey : (r.userId,r.channelId) ∈ a.memberIds.map fun u => (u,c) := by
        rw [← a.rows_keys c ids]
        exact List.mem_map_of_mem hr
      obtain ⟨u,_,hu⟩ := List.mem_map.mp hkey
      simpa using (Prod.mk.inj hu).2.symm
    rw [if_pos rfl]
    simp only [Db.roster] at hnil ⊢
    rw [h.members,List.filter_append,hnil,hall]
    simp [CreateArgs.membershipRows]
  · rw [if_neg he,(h.frozen he).roster]

theorem Added.length {m : MembershipRow} (h : Added m db db') (c : Uuid) :
    (db'.membershipsOf c).length =
      if c = m.channelId then (db.membershipsOf c).length+1 else (db.membershipsOf c).length := by
  rw [← Db.length_roster,← Db.length_roster]
  simp only [Db.roster,h.members,List.filter_append,List.length_append]
  by_cases he : c = m.channelId
  · subst he
    simp
  · rw [if_neg he,List.filter_cons_of_neg (by simpa using Ne.symm he)]
    rfl

theorem Removed.length_le {u d : Uuid} {o : Option Uuid} (h : Removed u d o db db') (c : Uuid) :
    (db'.membershipsOf c).length ≤ (db.membershipsOf c).length := by
  rw [← Db.length_roster,← Db.length_roster]
  simp only [Db.roster,h.members,List.filter_map,List.length_map,Function.comp_def,
    promoteRow_channelId]
  exact (List.filter_sublist.filter _).length_le

/-! ### What `create` and `addMember` know -/

theorem length_others_le {userId : Uuid} {participantIds others : List Uuid} {type : Option ChannelType}
    {t : ChannelType} (h : checkParticipantIds userId participantIds type = .ok (t,others)) :
    others.length ≤ MAX_CHANNEL_PARTICIPANTS := by
  obtain ⟨_,rfl,hdirect⟩ := of_checkParticipantIds h
  have hle := List.length_filter_le (fun v => decide (v ≠ userId)) (uniqueIds participantIds)
  simp only [checkParticipantIds] at h
  split at h
  · split_ifs at h with hone hself hne
    obtain ⟨rfl,_⟩ := Prod.mk.inj (Except.ok.inj h)
    rw [hdirect rfl]
    decide
  · split_ifs at h with hmax hne
    omega
  · simp at h

/-- The checked arguments a creation carries. -/
def Create.args? : Create → Option CreateArgs
  | .find _ => none
  | .begin a => some a
  | .lockPair a => some a
  | .existing a => some a
  | .summary a _ => some a
  | .insertChannel a => some a
  | .insertMemberships a _ => some a
  | .commit a _ _ => some a
  | .rollback _ => none
  | .store a _ => some a
  | .join a _ _ => some a
  | .emit a _ => some a
  | .client a _ _ => some a
  | .done a _ _ => some a
  | .failed _ => none

/-- The participants of a creation have passed the check. -/
def Create.Bounded (q : Create) : Prop := ∀ a, q.args? = some a → a.others.length ≤ MAX_CHANNEL_PARTICIPANTS

variable {x : Externals} {p : ℕ} {ch : Choice} {w w' : World} {d : Server}

theorem Create.bounded_find {input : CreateInput} {a : CreateArgs} (h : checkParticipants input = .ok a) :
    a.others.length ≤ MAX_CHANNEL_PARTICIPANTS := by
  simp only [checkParticipants] at h
  split at h
  · simp at h
  · rename_i others hcheck
    obtain rfl := Except.ok.inj h
    exact length_others_le hcheck
  · rename_i others hcheck
    obtain rfl := Except.ok.inj h
    exact length_others_le hcheck

/-- A creation goes on with the participants it has. -/
theorem Create.step_args {q q' : Create} (hs : q.step x p ch w = some (q',w')) {b : CreateArgs}
    (hb : q'.args? = some b) : (∃ input, q = .find input ∧ checkParticipants input = .ok b) ∨
      ∃ a, q.args? = some a ∧ b.others = a.others := by
  have hedge := Create.edge hs
  cases hedge with
  | failed _ err => simp [args?] at hb
  | abort _ err => simp [args?] at hb
  | checked a ha =>
    obtain rfl := Option.some.inj hb
    exact .inl ⟨_,rfl,ha⟩
  | _ =>
    obtain rfl := Option.some.inj hb
    exact .inr ⟨_,rfl,rfl⟩

theorem Create.Bounded.step {q q' : Create} (h : q.Bounded) (hs : q.step x p ch w = some (q',w')) :
    q'.Bounded := by
  intro b hb
  rcases step_args hs hb with ⟨input,_,hcheck⟩ | ⟨a,ha,he⟩
  · exact bounded_find hcheck
  · rw [he]
    exact h a ha

/-- An `addMember` about to insert has just counted. -/
theorem AddMember.step_insert {q : AddMember} {a : AddArgs} (hs : q.step p ch w = some (.insert a,w')) :
    q = .count a ∧ w' = w ∧ (w.pg.db.membershipsOf a.channelId).length ≤ MAX_CHANNEL_PARTICIPANTS := by
  have hcount : q = .count a := by
    have hedge := AddMember.edge hs
    generalize hq : AddMember.insert a = q' at hedge
    cases hedge with
    | room => rw [AddMember.insert.inj hq]
    | _ => simp at hq
  subst hcount
  obtain ⟨rfl,hq⟩ := query_eq hs
  rcases hq with hq | hq
  · simp at hq
  · split_ifs at hq with hfull
    exact ⟨rfl,rfl,by omega⟩

/-! ### Runs -/

/-- The invariant: the cap, and that every call may still do what it is about to do. -/
structure CapKept (d : Server) : Prop where
  capped : Capped d.world.pg.db
  creates : ∀ (p : ℕ) q, d.pool[p]? = some (.create q) → q.Bounded
  room : ∀ (p : ℕ) a, d.pool[p]? = some (.addMember (.insert a)) →
    (d.world.pg.db.membershipsOf a.channelId).length ≤ MAX_CHANNEL_PARTICIPANTS

theorem Call.addMember_of_step {q : Call} {s : AddMember} (hs : q.step x p ch w = some (.addMember s,w')) :
    ∃ t, q = .addMember t ∧ t.step p ch w = some (s,w') := by
  cases q with
  | addMember t =>
    obtain ⟨s',hm,he⟩ := Call.of_step hs
    obtain rfl := Call.addMember.inj he
    exact ⟨t,rfl,hm⟩
  | _ =>
    obtain ⟨s',_,he⟩ := Call.of_step hs
    simp at he

theorem Call.create_of_step {q : Call} {s : Create} (hs : q.step x p ch w = some (.create s,w')) :
    ∃ t, q = .create t ∧ t.step x p ch w = some (s,w') := by
  cases q with
  | create t =>
    obtain ⟨s',hm,he⟩ := Call.of_step hs
    obtain rfl := Call.create.inj he
    exact ⟨t,rfl,hm⟩
  | _ =>
    obtain ⟨s',_,he⟩ := Call.of_step hs
    simp at he

/-- A call about to insert was so before the step and did not move, or has just counted. -/
theorem insert_came {e : Server} {l : Action} {r : ℕ} {a : AddArgs} (harr : Arrives d l)
    (hn : (server x).next d l = some e) (hr : e.pool[r]? = some (.addMember (.insert a))) :
    (d.pool[r]? = some (.addMember (.insert a)) ∧ ∀ ch, l ≠ .run r ch) ∨
    e.world = d.world ∧ (d.world.pg.db.membershipsOf a.channelId).length ≤ MAX_CHANNEL_PARTICIPANTS := by
  cases l with
  | spawn q =>
    obtain rfl := Option.some.inj hn
    rcases pool_append hr with ⟨_,hr⟩ | ⟨_,rfl⟩
    · exact .inl ⟨hr,by simp⟩
    · cases harr
  | run i ch =>
    obtain ⟨q,q',w,hq,hs,rfl⟩ := (server x).next_run hn
    rcases pool_set hr with ⟨rfl,rfl⟩ | ⟨hne,hr⟩
    · obtain ⟨t,rfl,ht⟩ := Call.addMember_of_step hs
      obtain ⟨_,rfl,hle⟩ := AddMember.step_insert ht
      exact .inr ⟨rfl,hle⟩
    · refine .inl ⟨hr,fun ch' he => hne ?_⟩
      injection he with he _
      exact he.symm
  | env v =>
    obtain ⟨w,_,rfl⟩ := (server x).next_env hn
    exact .inl ⟨hr,by simp⟩

theorem creates_next {e : Server} {l : Action} (harr : Arrives d l) (hn : (server x).next d l = some e)
    (h : ∀ (p : ℕ) q, d.pool[p]? = some (.create q) → q.Bounded) (p : ℕ) (q : Create)
    (hp : e.pool[p]? = some (.create q)) : q.Bounded := by
  cases l with
  | spawn s =>
    obtain rfl := Option.some.inj hn
    rcases pool_append hp with ⟨_,hp⟩ | ⟨_,rfl⟩
    · exact h p q hp
    · cases harr
      intro a ha
      simp [Create.args?] at ha
  | run i ch =>
    obtain ⟨s,s',w,hs,hstep,rfl⟩ := (server x).next_run hn
    rcases pool_set hp with ⟨rfl,rfl⟩ | ⟨_,hp⟩
    · obtain ⟨t,rfl,ht⟩ := Call.create_of_step hstep
      exact (h p t hs).step ht
    · exact h p q hp
  | env v =>
    obtain ⟨w,_,rfl⟩ := (server x).next_env hn
    exact h p q hp

/-- What a step does to the numbers of members. -/
inductive Counts (d e : Server) (l : Action) : Prop
  | fewer (h : ∀ c, (e.world.pg.db.membershipsOf c).length ≤ (d.world.pg.db.membershipsOf c).length)
  | created (p : ℕ) (a : CreateArgs) (channel : ChannelRow) (ids : List Uuid)
      (hp : d.pool[p]? = some (.create (.commit a (some channel) true)))
      (h : Created a channel.id ids d.world.pg.db e.world.pg.db)
  | added (p : ℕ) (ch : Choice) (a : AddArgs) (m : MembershipRow) (hl : l = .run p ch)
      (hp : d.pool[p]? = some (.addMember (.insert a))) (hm : m.channelId = a.channelId)
      (h : Added m d.world.pg.db e.world.pg.db)

theorem counts_next {e : Server} {l : Action} (hv : (outline x).Valid d)
    (hn : (server x).next d l = some e) : Counts d e l := by
  rcases step_refines hv hn with he | ⟨p,q,ch,rfl,hq,hc⟩
  · exact .fewer fun c => by rw [he]
  rcases hc.cases with ⟨_,msg,_,h⟩ | ⟨m,c,_,h⟩ | ⟨a,channel,ids,rfl,h⟩ | ⟨a,id,now,rfl,h⟩ | ⟨a,_,o,_,h⟩
  · exact .fewer fun c => Nat.le_of_eq (Db.length_of_members h.members c)
  · exact .fewer fun c => Nat.le_of_eq (Db.length_of_members h.members c)
  · exact .created p a channel ids hq h
  · exact .added p ch a _ rfl hq rfl h
  · exact .fewer h.length_le

theorem CapKept.next {e : Server} {l : Action} (hv : (outline x).Valid d) (h : CapKept d)
    (hl : LeavesRoom d l) (hn : (server x).next d l = some e) : CapKept e := by
  have hcounts := counts_next hv hn
  refine ⟨fun c => ?_,creates_next hl.1 hn h.creates,fun r b hr => ?_⟩
  · cases hcounts with
    | fewer hle => exact (hle c).trans (h.capped c)
    | created p a channel ids hp hc =>
      rw [hc.length hv.inv.integrity c]
      split_ifs
      · exact Nat.succ_le_succ (h.creates p _ hp a rfl)
      · exact h.capped c
    | added p ch a m _ hp hm hadd =>
      rw [hadd.length c,hm]
      split_ifs with he
      · rw [he]
        exact Nat.succ_le_succ (h.room p a hp)
      · exact h.capped c
  · rcases insert_came hl.1 hn hr with ⟨hr',hstill⟩ | ⟨hworld,hle⟩
    · have hroom := h.room r b hr'
      cases hcounts with
      | fewer hle => exact (hle _).trans hroom
      | created p a channel ids hp hc =>
        have htyped : d.world.pg.db.Typed b.channelId .group := (hv.holds r _ hr').2
        have hne : b.channelId ≠ channel.id := fun he => by
          obtain ⟨row,hrow,hid,_⟩ := htyped
          exact hc.fresh ⟨row,hrow,hid.trans he⟩
        rw [hc.length hv.inv.integrity,if_neg hne]
        exact hroom
      | added p ch a m hrun hp hm hadd =>
        rw [hadd.length,hm]
        split_ifs with he
        · have hne : r ≠ p := by
            rintro rfl
            exact hstill ch hrun
          rw [he]
          exact hl.2 p ch a hrun hp r b hne hr' he
        · exact hroom
    · rw [hworld]
      exact hle

/-- In every run in which no `addMember` takes the last free place of a channel from another one
that has counted it, no channel has more members than the cap in any state reached. -/
theorem member_cap_holds (hw : Start w) (h₀ : Capped w.pg.db) (h : Reach x LeavesRoom w d) (c : Uuid) :
    (d.world.pg.db.membershipsOf c).length ≤ MAX_CHANNEL_PARTICIPANTS+1 := by
  have hkept : CapKept d := by
    refine h.invariant ⟨h₀,by simp,by simp⟩ fun a l b hr ha hl hn => ?_
    exact ha.next (Reach.valid (fun _ _ hl => hl.1) hw hr) hl hn
  exact hkept.capped c

def leavesRoom (d : Server) (l : Action) : Bool :=
  arrives d l && match l with
    | .run p _ =>
      match d.pool[p]? with
      | some (.addMember (.insert a)) => (List.range d.pool.length).all fun r =>
        match d.pool[r]? with
        | some (.addMember (.insert b)) => r = p || b.channelId ≠ a.channelId ||
            (d.world.pg.db.membershipsOf a.channelId).length < MAX_CHANNEL_PARTICIPANTS
        | _ => true
      | _ => true
    | _ => true

theorem leavesRoom_sound (d : Server) (l : Action) (h : leavesRoom d l = true) : LeavesRoom d l := by
  obtain ⟨harr,hroom⟩ := Bool.and_eq_true_iff.mp h
  refine ⟨arrives_sound d l harr,?_⟩
  rintro p ch a rfl hp r b hne hr hc
  simp only [hp] at hroom
  have hlt := (List.getElem?_eq_some_iff.mp hr).1
  have hthis := List.all_eq_true.mp hroom r (List.mem_range.mpr hlt)
  simp only [hr,hne,hc,decide_false,ne_eq,not_true_eq_false,Bool.or_false,Bool.false_or,
    decide_eq_true_eq] at hthis
  exact hthis

/-- The first fifty of fifty-two users share a channel. -/
def nearlyFull : World where
  pg := ⟨{
    users := (List.range' 1 52).map fun i => ⟨i,"user","",true⟩
    channels := [⟨10,some "team",.group,false,none,none,0⟩]
    memberships := (List.range' 1 50).map fun i => ⟨100+i,if i = 1 then .admin else .member,i,none,i,10⟩
    messages := []
    reactions := [] },fun _ => [],[]⟩
  redis := ⟨fun _ => [],fun _ => [],fun _ _ => 0,fun _ => []⟩
  sockets := []
  connections := 0
  queue := []
  inbox := []
  popped := []

theorem nearlyFull_start : Start nearlyFull := by
  refine ⟨rfl,fun _ => rfl,by decide,by decide,?_,?_,by decide +kernel,?_⟩
  · intro m hm
    simp [nearlyFull] at hm
  · intro m hm
    refine ⟨⟨10,some "team",.group,false,none,none,0⟩,by decide,?_⟩
    simp only [nearlyFull,Db.members,List.map_map,List.mem_map] at hm
    obtain ⟨i,_,rfl⟩ := hm
    rfl
  · intro m hm
    simp [nearlyFull] at hm

theorem nearlyFull_capped : Capped nearlyFull.pg.db := by
  intro c
  have hle := List.length_filter_le (fun m : MembershipRow => decide (m.channelId = c))
    nearlyFull.pg.db.memberships
  exact hle.trans (by decide)

/-- The admin adds the fifty-first member, and a fifty-second is refused. -/
def filled : List Action :=
  .spawn (.addMember (.role ⟨10,1,51,none⟩))::steps 0 4++.run 0 (drawing [200])::steps 0 4++
    .spawn (.addMember (.role ⟨10,1,52,none⟩))::steps 1 4

theorem member_cap_holds_filled : ∃ d, Reach plain LeavesRoom nearlyFull d ∧
    d.pool[1]? = some (.addMember (.failed (.badRequest "Channel is full"))) ∧
    (d.world.pg.db.membershipsOf 10).length ≤ MAX_CHANNEL_PARTICIPANTS+1 := by
  obtain ⟨d,hd,hf⟩ := Run.exists_of_exec (S := server plain) (c := ⟨nearlyFull,[]⟩) leavesRoom_sound filled
    (f := fun d => d.pool[1]?) (v := some (.addMember (.failed (.badRequest "Channel is full"))))
    (by decide +kernel)
  exact ⟨d,hd,hf,member_cap_holds nearlyFull_start nearlyFull_capped hd 10⟩

/-- Two requests count fifty members, and both insert. -/
def crowded : List Action :=
  .spawn (.addMember (.role ⟨10,1,51,none⟩))::steps 0 4++.spawn (.addMember (.role ⟨10,1,52,none⟩))::steps 1 4++
    [.run 0 (drawing [200]),.run 1 (drawing [201])]

theorem member_cap_exceeded : ∃ d, Reach plain Arrives nearlyFull d ∧
    ¬ ∀ c, (d.world.pg.db.membershipsOf c).length ≤ MAX_CHANNEL_PARTICIPANTS+1 := by
  obtain ⟨d,hd,hf⟩ := Run.exists_of_exec (S := server plain) (c := ⟨nearlyFull,[]⟩) arrives_sound crowded
    (f := fun d => (d.world.pg.db.membershipsOf 10).length) (v := 52) (by decide +kernel)
  refine ⟨d,hd,fun h => ?_⟩
  have hle := h 10
  rw [hf] at hle
  exact absurd hle (by decide)

end ZevraServer
