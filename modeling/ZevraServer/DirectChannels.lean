import ZevraServer.Refinement

/-!
# Direct channels

Any two users share at most one direct channel, and a direct channel never has more
than two members. A `create` that finds an existing channel returns one that both
users were members of at the lookup.
-/

namespace ZevraServer

open ReadCommitted Interleaving

/-- One direct channel for a pair, and no third member in it. -/
structure OneDirect (db : Db) : Prop where
  pair : ∀ a b, a ≠ b → ∀ c c', db.Direct a b c → db.Direct a b c' → c = c'
  two : ∀ c, db.Typed c .direct → (db.roster c).length ≤ 2

namespace OneDirect

variable {db db' : Db}

theorem typed_of_channels {c : Uuid} {t : ChannelType} (h : db'.channels = db.channels) :
    db'.Typed c t ↔ db.Typed c t := by
  simp only [Db.Typed,h]

/-- A change that adds neither direct channels nor members. -/
theorem of_subset (h : OneDirect db) (ht : ∀ c, db'.Typed c .direct → db.Typed c .direct)
    (hm : ∀ u c, db.Typed c .direct → db'.HasMember u c → db.HasMember u c)
    (hr : ∀ c, db.Typed c .direct → (db'.roster c).length ≤ (db.roster c).length) : OneDirect db' := by
  refine ⟨fun a b hab c c' hc hc' => ?_,fun c hc => (hr c (ht c hc)).trans (h.two c (ht c hc))⟩
  have hold : ∀ d, db'.Direct a b d → db.Direct a b d := fun d hd =>
    ⟨ht d hd.1,hm a d (ht d hd.1) hd.2.1,hm b d (ht d hd.1) hd.2.2⟩
  exact h.pair a b hab c c' (hold c hc) (hold c' hc')

theorem created {a : CreateArgs} {c : Uuid} {ids : List Uuid} (hi : Integrity db) (h : OneDirect db)
    (hc : Created a c ids db db') : OneDirect db' := by
  have hold : ∀ u v d, d ≠ c → db'.Direct u v d → db.Direct u v d := by
    intro u v d hd hdir
    refine ⟨(hc.typed.mp hdir.1).resolve_right fun he => hd he.1,?_,?_⟩
    · exact (hc.hasMember.mp hdir.2.1).resolve_right fun he => hd he.1
    · exact (hc.hasMember.mp hdir.2.2).resolve_right fun he => hd he.1
  have hnew : ∀ u v, u ≠ v → db'.Direct u v c → ∀ d, ¬ db.Direct u v d := by
    intro u v huv hdir d hd
    have ht : a.type = .direct :=
      (((hc.typed.mp hdir.1).resolve_left fun ht => hc.fresh ht.hasChannel).2).symm
    have hu := ((hc.hasMember.mp hdir.2.1).resolve_left fun hm => hc.fresh (hi.hasMember_channel hm)).2
    have hv := ((hc.hasMember.mp hdir.2.2).resolve_left fun hm => hc.fresh (hi.hasMember_channel hm)).2
    obtain ⟨_,hmem⟩ := hc.valid.pair ht
    have hnone := hc.pair ht d
    rcases (hmem u).mp hu with rfl | rfl <;> rcases (hmem v).mp hv with rfl | rfl
    · exact huv rfl
    · exact hnone hd
    · exact hnone ⟨hd.1,hd.2.2,hd.2.1⟩
    · exact huv rfl
  refine ⟨fun u v huv d d' hd hd' => ?_,fun d hd => ?_⟩
  · by_cases he : d = c <;> by_cases he' : d' = c
    · rw [he,he']
    · subst he
      exact absurd (hold u v d' he' hd') (hnew u v huv hd d')
    · subst he'
      exact absurd (hold u v d he hd) (hnew u v huv hd' d)
    · exact h.pair u v huv d d' (hold u v d he hd) (hold u v d' he' hd')
  · by_cases he : d = c
    · subst he
      have ht : a.type = .direct :=
        (((hc.typed.mp hd).resolve_left fun ht => hc.fresh ht.hasChannel).2).symm
      have hros : db'.roster d = (a.membershipRows d ids).filter fun m => m.channelId = d := by
        have hnil : db.members.filter (fun m => decide (m.channelId = d)) = [] :=
          hi.roster_eq_nil hc.fresh
        rw [Db.roster,hc.members,List.filter_append,hnil,List.nil_append]
      rw [hros]
      refine (List.length_filter_le _ _).trans ?_
      simp [CreateArgs.membershipRows,hc.valid.one ht]
    · rw [(hc.frozen he).roster]
      exact h.two d ((hc.typed.mp hd).resolve_right fun hc' => he hc'.1)

theorem added {m : MembershipRow} (hi : Integrity db) (h : OneDirect db) (ha : Added m db db') :
    OneDirect db' := by
  have hne : ∀ c, db.Typed c .direct → c ≠ m.channelId := by
    rintro c hc rfl
    exact absurd (hi.typed_unique hc ha.channel) (by decide)
  refine h.of_subset (fun c => (typed_of_channels ha.channels).mp) (fun u c ht hm => ?_) fun c ht => ?_
  · exact (ha.hasMember.mp hm).resolve_right fun he => hne c ht he.2
  · simp [Db.roster,ha.members,Ne.symm (hne c ht)]

theorem removed {u c : Uuid} {o : Option Uuid} (h : OneDirect db) (hr : Removed u c o db db') :
    OneDirect db' := by
  refine h.of_subset (fun c => (typed_of_channels hr.channels).mp)
    (fun v d _ hm => (hr.hasMember.mp hm).1) fun d _ => ?_
  simp only [Db.roster,hr.members,List.filter_map,Function.comp_def,promoteRow_channelId,
    List.filter_filter,List.length_map]
  refine List.Sublist.length_le ?_
  refine List.monotone_filter_right _ fun r hr => ?_
  simp only [Bool.and_eq_true] at hr
  exact hr.1

/-- Every atomic change keeps the direct channels in order. -/
theorem transition (hi : Integrity db) (h : OneDirect db) (ht : Transition db db') : OneDirect db' := by
  cases ht with
  | sent m hs =>
    refine h.of_subset (fun c hc => ?_) (fun u c _ => (Db.hasMember_congr hs.members u c).mp)
      fun c _ => (congrArg List.length (Db.roster_congr hs.members c)).le
    simp only [Db.Typed,hs.channels] at hc
    exact Db.typed_of_point hc
  | deleted m c hd =>
    exact h.of_subset (fun c => hd.channels.typed) (fun u c _ => (Db.hasMember_congr hd.members u c).mp)
      fun c _ => (congrArg List.length (Db.roster_congr hd.members c)).le
  | created a c ids hc => exact h.created hi hc
  | added m ha => exact h.added hi ha
  | removed u c o hr => exact h.removed hr

end OneDirect

/-! ### The lookup -/

namespace Create

/-- The existing channel a `create` has found. -/
def found : Create → Option (CreateArgs × Uuid)
  | .summary a c => some (a,c)
  | .commit a (some channel) false => some (a,channel.id)
  | .join a channel false => some (a,channel.id)
  | .client a channel false => some (a,channel.id)
  | .done a channel false => some (a,channel.id)
  | _ => none

variable {x : Externals} {p : ℕ} {ch : Choice} {w w' : World}

/-- The channel is found by the lookup and stays the same to the end. -/
theorem found_step {q q' : Create} {a : CreateArgs} {c : Uuid} (h : q.step x p ch w = some (q',w'))
    (hf : q'.found = some (a,c)) : q.found = some (a,c) ∨
      q = .existing a ∧ c ∈ (w.pg.view p).directChannels a.pair.1 a.pair.2 := by
  have hstat : ∀ {next : Create} {r : Option (Except DbError Postgres)},
      statement w next r = some (q',w') → q'.found = next.found ∨ q'.found = none := by
    intro next r hr
    rcases own_statement hr with ⟨err,rfl,_⟩ | ⟨pg,_,rfl,_⟩
    · exact .inr rfl
    · exact .inl rfl
  have hnone : ∀ {next : Create} {r : Option (Except DbError Postgres)}, next.found = none →
      statement w next r = some (q',w') → False := by
    intro next r hn hr
    rcases hstat hr with he | he <;> simp [he,hn] at hf
  cases q with
  | find input =>
    simp only [step] at h
    split at h
    · obtain ⟨rfl,_⟩ := Prod.mk.inj (Option.some.inj h)
      simp [found] at hf
    · split_ifs at h <;> obtain ⟨rfl,_⟩ := Prod.mk.inj (Option.some.inj h) <;> simp [found] at hf
  | begin b =>
    obtain ⟨rfl,_⟩ := Prod.mk.inj (Option.some.inj h)
    simp only at hf
    split at hf <;> simp [found] at hf
  | lockPair b =>
    simp only [step] at h
    split at h
    · obtain ⟨rfl,_⟩ := Prod.mk.inj (Option.some.inj h)
      simp [found] at hf
    · exact (hnone rfl h).elim
  | existing b =>
    simp only [step] at h
    split at h
    · obtain ⟨rfl,_⟩ := Prod.mk.inj (Option.some.inj h)
      simp [found] at hf
    · split at h
      · rename_i c' hpick
        obtain ⟨rfl,_⟩ := Prod.mk.inj (Option.some.inj h)
        obtain ⟨rfl,rfl⟩ := Prod.mk.inj (Option.some.inj hf)
        exact .inr ⟨rfl,Db.pick_mem hpick⟩
      · obtain ⟨rfl,_⟩ := Prod.mk.inj (Option.some.inj h)
        simp [found] at hf
  | summary b c' =>
    simp only [step] at h
    split at h
    · obtain ⟨rfl,_⟩ := Prod.mk.inj (Option.some.inj h)
      simp [found] at hf
    · obtain ⟨rfl,_⟩ := Prod.mk.inj (Option.some.inj h)
      cases hch : (w.pg.view p).channel? c' with
      | none => simp [hch,found] at hf
      | some channel =>
        rw [hch] at hf
        obtain ⟨rfl,rfl⟩ := Prod.mk.inj (Option.some.inj hf)
        exact .inl (by rw [(Db.of_channel? hch).2]; rfl)
  | insertChannel b =>
    simp only [step] at h
    split at h
    · obtain ⟨rfl,_⟩ := Prod.mk.inj (Option.some.inj h)
      simp [found] at hf
    · exact (hnone rfl h).elim
  | insertMemberships b channel =>
    simp only [step] at h
    split at h
    · obtain ⟨rfl,_⟩ := Prod.mk.inj (Option.some.inj h)
      simp [found] at hf
    · exact (hnone rfl h).elim
  | commit b channel created =>
    simp only [step] at h
    split at h
    · obtain ⟨rfl,_⟩ := Prod.mk.inj (Option.some.inj h)
      simp [found] at hf
    · rcases channel with _ | channel
      · obtain ⟨rfl,_⟩ := Prod.mk.inj (Option.some.inj h)
        simp [found] at hf
      · obtain ⟨rfl,_⟩ := Prod.mk.inj (Option.some.inj h)
        cases created with
        | false => exact .inl hf
        | true => simp [found] at hf
  | rollback err =>
    obtain ⟨rfl,_⟩ := Prod.mk.inj (Option.some.inj h)
    simp [found] at hf
  | store b channel =>
    obtain ⟨rfl,_⟩ := Prod.mk.inj (Option.some.inj h)
    simp [found] at hf
  | join b channel created =>
    obtain ⟨rfl,_⟩ := Prod.mk.inj (Option.some.inj h)
    cases created with
    | false => exact .inl hf
    | true => simp [found] at hf
  | emit b channel =>
    obtain ⟨rfl,_⟩ := Prod.mk.inj (Option.some.inj h)
    simp [found] at hf
  | client b channel created =>
    obtain ⟨rfl,_⟩ := Prod.mk.inj (Option.some.inj h)
    cases created with
    | false => exact .inl hf
    | true => simp [found] at hf
  | done b channel created => simp [step] at h
  | failed err => simp [step] at h

end Create

variable {x : Externals} {w : World} {d e : Server}

/-- At an earlier point of the run call `p` was at its lookup, and `c` was a direct channel
with all of its users in it. -/
def LookedUp (x : Externals) (w : World) (d : Server) (p : ℕ) (a : CreateArgs) (c : Uuid) : Prop :=
  ∃ b, Reach x Arrives w b ∧ Run (server x) Arrives b d ∧ b.pool[p]? = some (.create (.existing a)) ∧
    b.world.pg.db.Typed c .direct ∧ ∀ u ∈ a.memberIds, b.world.pg.db.HasMember u c

theorem LookedUp.tail {p : ℕ} {a : CreateArgs} {c : Uuid} (h : LookedUp x w d p a c) {l : Action}
    (hl : Arrives d l) (hn : (server x).next d l = some e) : LookedUp x w e p a c := by
  obtain ⟨b,hb,hd,hrest⟩ := h
  exact ⟨b,hb,hd.tail hl hn,hrest⟩

theorem Reach.looked_up (hw : Start w) (h : Reach x Arrives w d) {p : ℕ} {q : Create} {a : CreateArgs}
    {c : Uuid} (hp : d.pool[p]? = some (.create q)) (hf : q.found = some (a,c)) :
    LookedUp x w d p a c := by
  refine h.invariant (I := fun d => ∀ p q a c, d.pool[p]? = some (.create q) →
    q.found = some (a,c) → LookedUp x w d p a c) (by simp) ?_ p q a c hp hf
  intro d l e hr hd hl hn p q a c hp hf
  cases l with
  | spawn q₀ =>
    obtain rfl := Option.some.inj hn
    simp only at hp
    rw [List.getElem?_append] at hp
    split at hp
    · exact (hd p q a c hp hf).tail hl rfl
    · obtain rfl : Call.create q = q₀ := by simpa using List.mem_of_getElem? hp
      cases hl
      simp [Create.found] at hf
  | run r ch =>
    obtain ⟨q₀,q',v,hq,hs,rfl⟩ := (server x).next_run hn
    by_cases he : p = r
    · subst he
      have hlt : p < d.pool.length := (List.getElem?_eq_some_iff.mp hq).1
      simp only [List.getElem?_set_self hlt,Option.some.injEq] at hp
      subst hp
      obtain ⟨q₁,rfl,hs'⟩ : ∃ q₁, q₀ = .create q₁ ∧ q₁.step x p ch d.world = some (q,v) := by
        cases q₀ <;> obtain ⟨s,hs',he⟩ := Call.of_step hs <;> simp at he
        exact ⟨_,rfl,he ▸ hs'⟩
      rcases Create.found_step hs' hf with hfound | ⟨rfl,hmem⟩
      · exact (hd p q₁ a c hq hfound).tail hl hn
      · have hv := Reach.valid (fun _ _ => id) hw hr
        have hass : d.world.pg.pending p = [] ∧ a.Valid ∧ a.type = .direct ∧ _ := hv.holds p _ hq
        obtain ⟨hpend,hval,htype,_⟩ := hass
        rw [Pg.view,hpend,applyAll_nil] at hmem
        obtain ⟨hlt,hiff⟩ := hval.pair htype
        have hdir := (Db.mem_directChannels hv.inv.integrity hlt.ne).mp hmem
        refine ⟨d,hr,(Run.refl d).tail hl hn,hq,hdir.1,fun u hu => ?_⟩
        rcases (hiff u).mp hu with rfl | rfl
        · exact hdir.2.1
        · exact hdir.2.2
    · simp only [List.getElem?_set_ne (Ne.symm he)] at hp
      exact (hd p q a c hp hf).tail hl hn
  | env ev =>
    obtain ⟨v,_,rfl⟩ := (server x).next_env hn
    exact (hd p q a c hp hf).tail hl hn

/-- In every reachable state two users share at most one direct channel and a direct
channel has at most two members; a direct `create` that reports an existing channel
returns a direct channel in which its users were members when it looked. -/
theorem one_direct_channel_per_pair (hw : Start w) (h₀ : OneDirect w.pg.db) (h : Reach x Arrives w d) :
    (∀ a b, a ≠ b → ∀ c c', d.world.pg.db.Direct a b c → d.world.pg.db.Direct a b c' → c = c') ∧
    (∀ c, d.world.pg.db.Typed c .direct → (d.world.pg.db.membershipsOf c).length ≤ 2) ∧
    ∀ (p : ℕ) a channel, d.pool[p]? = some (Call.create (.done a channel false)) →
      channel.type = .direct ∧ ∃ b, Reach x Arrives w b ∧ Run (server x) Arrives b d ∧
        b.pool[p]? = some (Call.create (.existing a)) ∧ b.world.pg.db.Typed channel.id .direct ∧
        ∀ u ∈ a.memberIds, b.world.pg.db.HasMember u channel.id := by
  have hone : OneDirect d.world.pg.db :=
    h.tables (fun _ _ => id) hw h₀ fun _ _ hi hd ht => hd.transition hi ht
  refine ⟨hone.pair,fun c hc => ?_,fun p a channel hp => ⟨?_,h.looked_up hw hp rfl⟩⟩
  · have hlen := hone.two c hc
    rwa [Db.roster_of_membershipsOf,List.length_map] at hlen
  · have hass : _ ∧ (false = false → channel.type = .direct) :=
      (h.valid (fun _ _ => id) hw).holds p _ hp
    exact hass.2 rfl

theorem smallWorld_oneDirect : OneDirect smallWorld.pg.db := by
  have hnone : ∀ c, ¬ smallWorld.pg.db.Typed c .direct := by
    rintro c ⟨r,hr,_,ht⟩
    simp only [smallWorld,smallDb,List.mem_singleton] at hr
    subst hr
    simp at ht
  exact ⟨fun a b _ c c' hc _ => absurd hc.1 (hnone c),fun c hc => absurd hc (hnone c)⟩

/-- Both users create their direct channel; the second waits for the lock of the first. -/
def bothCreate : List Action :=
  .spawn (.create (.find ⟨1,[2],some .direct,none,none⟩))::
    .spawn (.create (.find ⟨2,[1],some .direct,none,none⟩))::
    steps 0 4++steps 1 2++.run 0 (drawing [20])::.run 0 (drawing [102,103])::steps 0 5++steps 1 6

theorem one_direct_channel_per_pair_bothCreate :
    ∃ d, Reach plain Arrives smallWorld d ∧ d.world.pg.db.channels.map (·.id) = [10,20] ∧
      ∀ c c', d.world.pg.db.Direct 1 2 c → d.world.pg.db.Direct 1 2 c' → c = c' := by
  obtain ⟨d,hr,hd⟩ := Run.exists_of_exec (S := server plain) (c := ⟨smallWorld,[]⟩) arrives_sound
    bothCreate (f := fun d => d.world.pg.db.channels.map (·.id)) (v := [10,20]) (by decide +kernel)
  exact ⟨d,hr,hd,(one_direct_channel_per_pair smallWorld_start smallWorld_oneDirect hr).1 1 2 (by decide)⟩

end ZevraServer
