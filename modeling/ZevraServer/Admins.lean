import ZevraServer.Refinement

/-!
# Admins

A channel with members has an admin, as long as `addMember` does not insert a plain
member into a channel that everybody has left since its checks. `removeMember` keeps
an admin among those who stay; `addMember` checks the requester's role in an earlier
statement and inserts without the lock of the channel row.
-/

namespace ZevraServer

open ReadCommitted Interleaving

/-- Every channel with members has an admin among them. -/
def HasAdmins (db : Db) : Prop := ∀ c, db.membershipsOf c ≠ [] → ∃ r ∈ db.membershipsOf c, r.role = .admin

/-- An `addMember` that inserts a plain member finds the channel inhabited. -/
def InsertsIntoInhabited (d : Server) (l : Action) : Prop :=
  Arrives d l ∧ ∀ (p : ℕ) ch a, l = .run p ch → ch.fail = false →
    d.pool[p]? = some (.addMember (.insert a)) → a.role.getD .member ≠ .admin →
      d.world.pg.db.membershipsOf a.channelId ≠ []

namespace HasAdmins

variable {db db' : Db}

theorem iff_roster : HasAdmins db ↔ ∀ c, db.roster c ≠ [] → ∃ r ∈ db.roster c, r.role = .admin := by
  simp [HasAdmins,Db.roster_of_membershipsOf,MembershipRow.clearRead]

theorem of_members (h : HasAdmins db) (hm : db'.members = db.members) : HasAdmins db' := by
  rw [iff_roster] at h ⊢
  intro c
  rw [Db.roster_congr hm c]
  exact h c

/-- The creator of a channel is its admin. -/
theorem created {a : CreateArgs} {c : Uuid} {ids : List Uuid} (h : HasAdmins db)
    (hc : Created a c ids db db') : HasAdmins db' := by
  rw [iff_roster] at h ⊢
  intro d hd
  by_cases he : d = c
  · subst he
    refine ⟨newMembership (ids.headD 0) a.userId d .admin a.startedAt,?_,rfl⟩
    simp [Db.roster,hc.members,CreateArgs.membershipRows,newMembership]
  · rw [(hc.frozen he).roster] at hd ⊢
    exact h d hd

theorem added {m : MembershipRow} (h : HasAdmins db) (ha : Added m db db')
    (hok : m.role ≠ .admin → db.roster m.channelId ≠ []) : HasAdmins db' := by
  rw [iff_roster] at h ⊢
  intro c hc
  have hros : db'.roster c = db.roster c++[m].filter fun r => r.channelId = c := by
    simp only [Db.roster,ha.members,List.filter_append]
  by_cases he : m.channelId = c
  · by_cases hrole : m.role = .admin
    · exact ⟨m,by simp [hros,he],hrole⟩
    · obtain ⟨r,hr,hadm⟩ := h c (he ▸ hok hrole)
      exact ⟨r,by simp [hros,hr],hadm⟩
  · have heq : db'.roster c = db.roster c := by simp [hros,he]
    rw [heq] at hc ⊢
    exact h c hc

/-- Who leaves does not take the last admin away from those who stay. -/
theorem removed {u c : Uuid} {o : Option Uuid} {x : Externals} (h : HasAdmins db)
    (hr : Removed u c o db db') : HasAdmins db' := by
  rw [iff_roster] at h ⊢
  intro d hd
  by_cases he : d = c
  · subst he
    have hne : db.roster d ≠ [] := by
      obtain ⟨m,hm,_⟩ := (db.hasMember_iff_roster u d).mp hr.member
      exact List.ne_nil_of_mem hm
    exact (hr.admin (h d hne)).resolve_left hd
  · rcases hr.keeps x (.channel d) with hf | hf
    · rw [hf.roster] at hd ⊢
      exact h d hd
    · exact absurd (Resource.channel.inj hf) he

end HasAdmins

variable {x : Externals} {w : World} {d : Server}

/-- The invariant of runs that insert plain members into inhabited channels only. -/
theorem Reach.hasAdmins (hw : Start w) (h₀ : HasAdmins w.pg.db) (h : Reach x InsertsIntoInhabited w d) :
    HasAdmins d.world.pg.db := by
  refine h.invariant (I := fun d => HasAdmins d.world.pg.db) h₀ fun a l b hr ha hl hn => ?_
  have hv := Reach.valid (fun _ _ hl => hl.1) hw hr
  rcases step_refines hv hn with he | ⟨p,q,ch,rfl,hq,hc⟩
  · rw [he]
    exact ha
  rcases hc.cases with ⟨_,msg,_,h⟩ | ⟨m,c,_,h⟩ | ⟨s,channel,ids,_,h⟩ | ⟨s,id,now,rfl,h⟩ | ⟨s,_,o,_,h⟩
  · exact ha.of_members h.members
  · exact ha.of_members h.members
  · exact ha.created h
  · cases hfail : ch.fail with
    | true =>
      obtain ⟨q₀,q',v,hq',hs,rfl⟩ := (server x).next_run hn
      obtain rfl := Option.some.inj (hq.symm.trans hq')
      simp only [server,Call.step,AddMember.step,hfail,if_true,Option.map_some,Option.some.injEq,
        Prod.mk.injEq] at hs
      rw [← hs.2]
      exact ha
    | false =>
      refine ha.added h fun hrole => ?_
      have hne := hl.2 p ch s rfl hfail hq hrole
      simpa [Db.roster_of_membershipsOf,newMembership] using hne
  · exact ha.removed (x := x) h

/-- In every run in which `addMember` inserts plain members into inhabited channels only,
every channel with members has an admin in every state reached, whether or not calls are
in progress. -/
theorem channel_has_admin (hw : Start w) (h₀ : HasAdmins w.pg.db)
    (h : Reach x InsertsIntoInhabited w d) (c : Uuid) (hc : d.world.pg.db.membershipsOf c ≠ []) :
    ∃ r ∈ d.world.pg.db.membershipsOf c, r.role = .admin :=
  h.hasAdmins hw h₀ c hc

theorem smallWorld_hasAdmins : HasAdmins smallWorld.pg.db := by
  intro c hc
  by_cases h : c = 10
  · subst h
    exact ⟨⟨100,.admin,0,none,1,10⟩,by decide,rfl⟩
  · have hne : ¬ 10 = c := fun he => h he.symm
    simp [smallWorld,smallDb,Db.membershipsOf,hne] at hc

def insertsIntoInhabited (d : Server) (l : Action) : Bool :=
  arrives d l && match l with
    | .run p _ =>
      match d.pool[p]? with
      | some (.addMember (.insert a)) =>
        decide (a.role.getD .member = .admin ∨ d.world.pg.db.membershipsOf a.channelId ≠ [])
      | _ => true
    | _ => true

theorem insertsIntoInhabited_sound (d : Server) (l : Action) (h : insertsIntoInhabited d l = true) :
    InsertsIntoInhabited d l := by
  obtain ⟨harr,hins⟩ := Bool.and_eq_true_iff.mp h
  refine ⟨arrives_sound d l harr,?_⟩
  rintro p ch a rfl _ hp hrole
  simp only [hp] at hins
  exact (of_decide_eq_true hins).resolve_left hrole

/-- The admin adds a third member, then leaves; the longest-standing member follows. -/
def adminLeaves : List Action :=
  .spawn (.addMember (.role ⟨10,1,3,none⟩))::steps 0 4++.run 0 (drawing [102])::steps 0 4++
    .spawn (.removeMember (.role ⟨10,1,1⟩))::steps 1 8

theorem channel_has_admin_adminLeaves :
    ∃ d, Reach plain InsertsIntoInhabited smallWorld d ∧
      ((d.world.pg.db.membershipsOf 10).map fun r => (r.userId,r.role)) = [(2,.admin),(3,.member)] ∧
      ∃ r ∈ d.world.pg.db.membershipsOf 10, r.role = .admin := by
  obtain ⟨d,hr,hd⟩ := Run.exists_of_exec (S := server plain) (c := ⟨smallWorld,[]⟩)
    insertsIntoInhabited_sound adminLeaves
    (f := fun d => (d.world.pg.db.membershipsOf 10).map fun r => (r.userId,r.role))
    (v := [(2,.admin),(3,.member)]) (by decide +kernel)
  refine ⟨d,hr,hd,channel_has_admin smallWorld_start smallWorld_hasAdmins hr 10 fun he => ?_⟩
  rw [he] at hd
  simp at hd

/-- The admin's request to add a third user has passed its checks when both members leave;
the row is then inserted into the empty channel. -/
def addedAfterAll : List Action :=
  .spawn (.addMember (.role ⟨10,1,3,none⟩))::steps 0 4++
    .spawn (.removeMember (.role ⟨10,2,2⟩))::steps 1 5++[.run 1 { calm with side := true }]++steps 1 3++
    .spawn (.removeMember (.role ⟨10,1,1⟩))::steps 2 7++[.run 2 { calm with side := true }]++steps 2 3++
    .run 0 (drawing [102])::steps 0 4

/-- Nothing is in progress and the only member of the channel is no admin. -/
theorem channel_without_admin :
    ∃ d, Reach plain Arrives smallWorld d ∧ MembershipQuiet d ∧
      ¬ ∀ c, d.world.pg.db.membershipsOf c ≠ [] →
        ∃ r ∈ d.world.pg.db.membershipsOf c, r.role = .admin := by
  obtain ⟨d,hr,hd⟩ := Run.exists_of_exec (S := server plain) (c := ⟨smallWorld,[]⟩) arrives_sound
    addedAfterAll (f := fun d => (d.pool,d.world.pg.db.membershipsOf 10))
    (v := ([.addMember (.done ⟨10,1,3,none⟩),.removeMember (.done ⟨10,2,2⟩ none),
      .removeMember (.done ⟨10,1,1⟩ none)],[⟨102,.member,5,none,3,10⟩])) (by decide +kernel)
  obtain ⟨hpool,hrows⟩ := Prod.mk.inj hd
  refine ⟨d,hr,?_,fun h => ?_⟩
  · intro q hq
    rw [hpool] at hq
    simp only [List.mem_cons,List.not_mem_nil,or_false] at hq
    rcases hq with rfl | rfl | rfl <;> simp
  · obtain ⟨r,hmem,hadm⟩ := h 10 (by simp [hrows])
    rw [hrows] at hmem
    obtain rfl := List.mem_singleton.mp hmem
    simp at hadm

end ZevraServer
