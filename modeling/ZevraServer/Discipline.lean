import ZevraServer.Tables

/-!
# What a lock protects

While a transaction holds the row of a channel `FOR UPDATE`, no other commit changes
the channel's row, messages or members; a claimed key stays free of rows; and the
advisory lock of a pair keeps new direct channels of the pair away. Every atomic
change of the tables respects every lock but the ones it names itself.
-/

namespace ZevraServer

open ReadCommitted

/-- Nothing of channel `c` changed. -/
structure Frozen (c : Uuid) (d e : Db) : Prop where
  messages : e.messagesOf c = d.messagesOf c
  channel : e.channel? c = d.channel? c
  roster : e.roster c = d.roster c

/-- What a lock on the resource keeps others from changing. -/
def keeps (x : Externals) : Resource → Db → Db → Prop
  | .channel c, d, e => Frozen c d e
  | .channelId i, d, e => ¬ d.HasChannel i → ¬ e.HasChannel i
  | .messageId i, d, e => (∀ r ∈ d.messages, r.id ≠ i) → ∀ r ∈ e.messages, r.id ≠ i
  | .advisory k, d, e =>
    ∀ a b, a < b → x.dmLockKey a b = k → ∀ c, e.Direct a b c → d.Direct a b c
  | _, _, _ => True

theorem keeps_refl (x : Externals) (l : Resource) (d : Db) : keeps x l d d := by
  cases l <;> simp [keeps]
  exact ⟨rfl,rfl,rfl⟩

theorem keeps_trans (x : Externals) {l : Resource} {d e f : Db} (h : keeps x l d e)
    (h' : keeps x l e f) : keeps x l d f := by
  cases l with
  | channel c =>
    exact ⟨h'.messages.trans h.messages,h'.channel.trans h.channel,h'.roster.trans h.roster⟩
  | channelId i => exact fun hd => h' (h hd)
  | messageId i => exact fun hd => h' (h hd)
  | advisory k => exact fun a b hab hk c hc => h a b hab hk c (h' a b hab hk c hc)
  | _ => trivial

def discipline (x : Externals) : Discipline Db Resource where
  keeps := keeps x
  grows := Grows
  keeps_refl := keeps_refl x
  keeps_trans := fun _ h h' => keeps_trans x h h'
  grows_refl := Grows.refl
  grows_trans := Grows.trans

/-! ### Frames of the atomic changes -/

theorem Db.channel?_append_of_ne (db : Db) {r : ChannelRow} {c : Uuid} (h : r.id ≠ c) :
    (db.channels++[r]).find? (fun s => decide (s.id = c)) = db.channel? c := by
  simp [Db.channel?,List.find?_append,h]

theorem Db.channel?_point_of_ne (l : List ChannelRow) {c d : Uuid} (h : d ≠ c) (i : Option Uuid)
    (t : Option ℕ) : (l.map (·.point c i t)).find? (fun s => decide (s.id = d)) =
      l.find? fun s => decide (s.id = d) := by
  induction l with
  | nil => rfl
  | cons r l ih =>
    simp only [List.map_cons,List.find?_cons,ChannelRow.point_id,ih]
    split
    · rename_i hr
      rw [ChannelRow.point_of_ne (by rw [of_decide_eq_true hr]; exact h)]
    · rfl

theorem Repointed.channel?_of_ne {m c d : Uuid} {db db' : Db} (h : Repointed m c db db') (hd : d ≠ c) :
    db'.channel? d = db.channel? d := by
  rcases h with ⟨_,h⟩ | ⟨_,prev,_,h⟩
  · simp only [Db.channel?,h]
  · simp only [Db.channel?,h]
    exact Db.channel?_point_of_ne _ hd _ _

theorem Db.roster_congr {d e : Db} (h : e.members = d.members) (c : Uuid) : e.roster c = d.roster c := by
  simp only [Db.roster,h]

theorem Db.hasMember_congr {d e : Db} (h : e.members = d.members) (u c : Uuid) :
    e.HasMember u c ↔ d.HasMember u c := by
  simp only [Db.HasMember,h]

theorem Db.typed_of_point {l : List ChannelRow} {c d : Uuid} {i : Option Uuid} {s : Option ℕ}
    {t : ChannelType} (h : ∃ r ∈ l.map (·.point c i s), r.id = d ∧ r.type = t) :
    ∃ r ∈ l, r.id = d ∧ r.type = t := by
  obtain ⟨r,hr,hd,ht⟩ := h
  obtain ⟨q,hq,rfl⟩ := List.mem_map.mp hr
  exact ⟨q,hq,by simpa using hd,by simpa using ht⟩

theorem Repointed.typed {m c d : Uuid} {db db' : Db} {t : ChannelType} (h : Repointed m c db db')
    (ht : db'.Typed d t) : db.Typed d t := by
  rcases h with ⟨_,h⟩ | ⟨_,prev,_,h⟩
  · simpa only [Db.Typed,h] using ht
  · simp only [Db.Typed,h] at ht
    exact Db.typed_of_point ht

variable {db db' : Db} (x : Externals)

theorem Sent.frozen {m : MessageRow} (h : Sent m db db') {c : Uuid} (hc : c ≠ m.channelId) :
    Frozen c db db' := by
  refine ⟨?_,?_,Db.roster_congr h.members c⟩
  · simp [Db.messagesOf,h.messages,Ne.symm hc]
  · simp only [Db.channel?,h.channels]
    exact Db.channel?_point_of_ne _ hc _ _

theorem Sent.keeps {m : MessageRow} (h : Sent m db db') (l : Resource) :
    keeps x l db db' ∨ l = .channel m.channelId ∨ l = .messageId m.id := by
  cases l with
  | channel c =>
    by_cases hc : c = m.channelId
    · exact .inr (.inl (by rw [hc]))
    · exact .inl (h.frozen hc)
  | channelId i =>
    refine .inl fun hd hi => hd ?_
    rw [Db.hasChannel_congr (d := db)] at hi
    · exact hi
    · rw [h.channels,Db.map_point_id]
  | messageId i =>
    by_cases hi : i = m.id
    · exact .inr (.inr (by rw [hi]))
    · refine .inl fun hd r hr => ?_
      rw [h.messages] at hr
      rcases List.mem_append.mp hr with hr | hr
      · exact hd r hr
      · obtain rfl := List.mem_singleton.mp hr
        exact Ne.symm hi
  | advisory k =>
    refine .inl fun a b _ _ c hc => ⟨?_,(Db.hasMember_congr h.members a c).mp hc.2.1,
      (Db.hasMember_congr h.members b c).mp hc.2.2⟩
    have ht := hc.1
    simp only [Db.Typed,h.channels] at ht
    exact Db.typed_of_point ht
  | _ => exact .inl trivial

theorem Deleted.frozen {m c : Uuid} (hi : Integrity db) (h : Deleted m c db db') {d : Uuid}
    (hd : d ≠ c) : Frozen d db db' := by
  refine ⟨?_,h.channels.channel?_of_ne hd,Db.roster_congr h.members d⟩
  obtain ⟨r,hr,rfl,rfl⟩ := h.message
  simp only [Db.messagesOf,h.messages,List.filter_map,Function.comp_def,MessageRow.wipeIf_channelId]
  conv_rhs => rw [← List.map_id (List.filter _ _)]
  refine List.map_congr_left fun s hs => ?_
  obtain ⟨hs,hsd⟩ := List.mem_filter.mp hs
  have hne : s.id ≠ r.id := by
    intro he
    have := hi.message_unique hs hr he
    subst this
    exact hd (of_decide_eq_true hsd).symm
  simp [MessageRow.wipeIf,hne]

theorem Deleted.keeps {m c : Uuid} (hi : Integrity db) (h : Deleted m c db db') (l : Resource) :
    keeps x l db db' ∨ l = .channel c := by
  cases l with
  | channel d =>
    by_cases hd : d = c
    · exact .inr (by rw [hd])
    · exact .inl (h.frozen hi hd)
  | channelId i => exact .inl fun hd hc => hd ((Db.hasChannel_congr h.channels.ids i).mp hc)
  | messageId i =>
    refine .inl fun hd r hr => ?_
    rw [h.messages] at hr
    obtain ⟨s,hs,rfl⟩ := List.mem_map.mp hr
    simpa using hd s hs
  | advisory k =>
    exact .inl fun a b _ _ c hc => ⟨h.channels.typed hc.1,(Db.hasMember_congr h.members a c).mp hc.2.1,
      (Db.hasMember_congr h.members b c).mp hc.2.2⟩
  | _ => exact .inl trivial

theorem CreateArgs.mem_rows {a : CreateArgs} {c : Uuid} {ids : List Uuid} {m : MembershipRow}
    (hm : m ∈ a.membershipRows c ids) : m.channelId = c ∧ m.userId ∈ a.memberIds := by
  have hk := List.mem_map_of_mem (f := fun m : MembershipRow => (m.userId,m.channelId)) hm
  rw [CreateArgs.rows_keys] at hk
  obtain ⟨u,hu,he⟩ := List.mem_map.mp hk
  obtain ⟨rfl,rfl⟩ := Prod.mk.inj he
  exact ⟨rfl,hu⟩

theorem Created.hasMember {a : CreateArgs} {c : Uuid} {ids : List Uuid} (h : Created a c ids db db')
    {u d : Uuid} : db'.HasMember u d ↔ db.HasMember u d ∨ d = c ∧ u ∈ a.memberIds := by
  simp only [Db.HasMember,h.members,List.mem_append]
  constructor
  · rintro ⟨m,hm | hm,rfl,rfl⟩
    · exact .inl ⟨m,hm,rfl,rfl⟩
    · exact .inr (CreateArgs.mem_rows hm)
  · rintro (⟨m,hm,hu,hc⟩ | ⟨rfl,hu⟩)
    · exact ⟨m,.inl hm,hu,hc⟩
    · have hk : (u,d) ∈ (a.membershipRows d ids).map fun m => (m.userId,m.channelId) := by
        rw [CreateArgs.rows_keys]
        exact List.mem_map.mpr ⟨u,hu,rfl⟩
      obtain ⟨m,hm,he⟩ := List.mem_map.mp hk
      obtain ⟨hu,hd⟩ := Prod.mk.inj he
      exact ⟨m,.inr hm,hu,hd⟩

theorem Created.typed {a : CreateArgs} {c : Uuid} {ids : List Uuid} (h : Created a c ids db db')
    {d : Uuid} {t : ChannelType} : db'.Typed d t ↔ db.Typed d t ∨ d = c ∧ t = a.type := by
  simp only [Db.Typed,h.channels,List.mem_append,List.mem_singleton]
  constructor
  · rintro ⟨r,hr | rfl,hd,ht⟩
    · exact .inl ⟨r,hr,hd,ht⟩
    · exact .inr ⟨hd.symm,ht.symm⟩
  · rintro (⟨r,hr,hd,ht⟩ | ⟨rfl,rfl⟩)
    · exact ⟨r,.inl hr,hd,ht⟩
    · exact ⟨a.channelRow d,.inr rfl,rfl,rfl⟩

theorem Created.frozen {a : CreateArgs} {c : Uuid} {ids : List Uuid} (h : Created a c ids db db')
    {d : Uuid} (hd : d ≠ c) : Frozen d db db' := by
  refine ⟨?_,?_,?_⟩
  · simp only [Db.messagesOf,h.messages]
  · simp only [Db.channel?,h.channels]
    exact Db.channel?_append_of_ne db (Ne.symm hd)
  · have hnone : (a.membershipRows c ids).filter (fun m => m.channelId = d) = [] := by
      simp only [List.filter_eq_nil_iff,decide_eq_true_eq]
      rintro m hm rfl
      exact hd (CreateArgs.mem_rows hm).1
    simp only [Db.roster,h.members,List.filter_append,hnone,List.append_nil]

/-- The members of a new direct channel are the sorted pair. -/
theorem CreateArgs.Valid.pair {a : CreateArgs} (h : a.Valid) (ht : a.type = .direct) :
    a.pair.1 < a.pair.2 ∧ ∀ u, u ∈ a.memberIds ↔ u = a.pair.1 ∨ u = a.pair.2 := by
  obtain ⟨v,hv⟩ := List.length_eq_one_iff.mp (h.one ht)
  have hne : a.userId ≠ v := by
    have := h.nodup
    simp only [memberIds,hv] at this
    simpa using this
  simp only [CreateArgs.pair,memberIds,hv,List.headD_cons,List.mem_cons,List.not_mem_nil,or_false]
  refine ⟨min_lt_max.mpr hne,fun u => ?_⟩
  rcases Nat.le_total a.userId v with hle | hle
  · rw [Nat.min_eq_left hle,Nat.max_eq_right hle]
  · rw [Nat.min_eq_right hle,Nat.max_eq_left hle]
    exact or_comm

theorem Created.keeps {a : CreateArgs} {c : Uuid} {ids : List Uuid} (hi : Integrity db)
    (h : Created a c ids db db') (l : Resource) :
    keeps x l db db' ∨ l = .channel c ∨ l = .channelId c ∨
      a.type = .direct ∧ l = .advisory (x.dmLockKey a.pair.1 a.pair.2) := by
  cases l with
  | channel d =>
    by_cases hd : d = c
    · exact .inr (.inl (by rw [hd]))
    · exact .inl (h.frozen hd)
  | channelId i =>
    by_cases hic : i = c
    · exact .inr (.inr (.inl (by rw [hic])))
    · refine .inl fun hd hc => hd ?_
      obtain ⟨r,hr,rfl⟩ := hc
      rw [h.channels] at hr
      rcases List.mem_append.mp hr with hr | hr
      · exact ⟨r,hr,rfl⟩
      · obtain rfl := List.mem_singleton.mp hr
        exact absurd rfl hic
  | messageId i => exact .inl fun hd => by rwa [h.messages]
  | advisory k =>
    by_cases hk : a.type = .direct ∧ k = x.dmLockKey a.pair.1 a.pair.2
    · exact .inr (.inr (.inr ⟨hk.1,by rw [hk.2]⟩))
    · refine .inl fun u v huv hkey d hd => ?_
      obtain ⟨ht,hu,hv⟩ := hd
      rcases h.typed.mp ht with ht | ⟨rfl,ht⟩
      · have hne : d ≠ c := fun he => h.fresh (he ▸ ht.hasChannel)
        refine ⟨ht,?_,?_⟩
        · exact (h.hasMember.mp hu).resolve_right fun hc => hne hc.1
        · exact (h.hasMember.mp hv).resolve_right fun hc => hne hc.1
      · have hu := (h.hasMember.mp hu).resolve_left fun hm => h.fresh (hi.hasMember_channel hm)
        have hv := (h.hasMember.mp hv).resolve_left fun hm => h.fresh (hi.hasMember_channel hm)
        obtain ⟨hlt,hmem⟩ := h.valid.pair ht.symm
        have hu := (hmem u).mp hu.2
        have hv := (hmem v).mp hv.2
        have hpair : u = a.pair.1 ∧ v = a.pair.2 := by
          rcases hu with rfl | rfl <;> rcases hv with rfl | rfl
          · exact absurd huv (lt_irrefl _)
          · exact ⟨rfl,rfl⟩
          · exact absurd huv hlt.asymm
          · exact absurd huv (lt_irrefl _)
        exact absurd ⟨ht.symm,by rw [← hkey,hpair.1,hpair.2]⟩ hk
  | _ => exact .inl trivial

theorem Added.hasMember {m : MembershipRow} (h : Added m db db') {u c : Uuid} :
    db'.HasMember u c ↔ db.HasMember u c ∨ u = m.userId ∧ c = m.channelId := by
  simp only [Db.HasMember,h.members,List.mem_append,List.mem_singleton]
  constructor
  · rintro ⟨r,hr | rfl,rfl,rfl⟩
    · exact .inl ⟨r,hr,rfl,rfl⟩
    · exact .inr ⟨rfl,rfl⟩
  · rintro (⟨r,hr,hu,hc⟩ | ⟨rfl,rfl⟩)
    · exact ⟨r,.inl hr,hu,hc⟩
    · exact ⟨m,.inr rfl,rfl,rfl⟩

theorem Added.keeps {m : MembershipRow} (hi : Integrity db) (h : Added m db db') (l : Resource) :
    keeps x l db db' ∨ l = .channel m.channelId := by
  cases l with
  | channel c =>
    by_cases hc : c = m.channelId
    · exact .inr (by rw [hc])
    · refine .inl ⟨?_,?_,?_⟩
      · simp only [Db.messagesOf,h.messages]
      · simp only [Db.channel?,h.channels]
      · simp [Db.roster,h.members,Ne.symm hc]
  | channelId i => exact .inl fun hd => by rwa [Db.HasChannel,h.channels]
  | messageId i => exact .inl fun hd => by rwa [h.messages]
  | advisory k =>
    refine .inl fun a b _ _ c hc => ?_
    have ht : db.Typed c .direct := by
      have := hc.1
      rwa [Db.Typed,h.channels] at this
    have hne : c ≠ m.channelId := by
      rintro rfl
      exact absurd (hi.typed_unique ht h.channel) (by decide)
    refine ⟨ht,?_,?_⟩
    · exact (h.hasMember.mp hc.2.1).resolve_right fun hm => hne hm.2
    · exact (h.hasMember.mp hc.2.2).resolve_right fun hm => hne hm.2
  | _ => exact .inl trivial

theorem Removed.hasMember {u c : Uuid} {o : Option Uuid} (h : Removed u c o db db') {v d : Uuid} :
    db'.HasMember v d ↔ db.HasMember v d ∧ ¬(v = u ∧ d = c) := by
  simp only [Db.HasMember,h.members,List.mem_map,List.mem_filter,decide_eq_true_eq]
  constructor
  · rintro ⟨r,⟨s,⟨hs,hne⟩,rfl⟩,rfl,rfl⟩
    exact ⟨⟨s,hs,by simp,by simp⟩,by simpa using hne⟩
  · rintro ⟨⟨s,hs,rfl,rfl⟩,hne⟩
    exact ⟨promoteRow c o s,⟨s,⟨hs,hne⟩,rfl⟩,by simp,by simp⟩

theorem Removed.keeps {u c : Uuid} {o : Option Uuid} (h : Removed u c o db db') (l : Resource) :
    keeps x l db db' ∨ l = .channel c := by
  cases l with
  | channel d =>
    by_cases hd : d = c
    · exact .inr (by rw [hd])
    · refine .inl ⟨?_,?_,?_⟩
      · simp only [Db.messagesOf,h.messages]
      · simp only [Db.channel?,h.channels]
      · simp only [Db.roster,h.members,List.filter_map,Function.comp_def,promoteRow_channelId,
          List.filter_filter]
        have hf : (db.members.filter fun r => decide (r.channelId = d) &&
            decide (¬(r.userId = u ∧ r.channelId = c))) = db.members.filter fun r => r.channelId = d := by
          refine List.filter_congr fun r _ => ?_
          by_cases hr : r.channelId = d
          · simp [hr,hd]
          · simp [hr]
        rw [hf]
        conv_rhs => rw [← List.map_id (List.filter _ _)]
        refine List.map_congr_left fun r hr => ?_
        have hrd : r.channelId = d := by simpa using (List.mem_filter.mp hr).2
        cases o with
        | none => rfl
        | some i => simp [promoteRow,MembershipRow.setRole,hrd,hd]
  | channelId i => exact .inl fun hd => by rwa [Db.HasChannel,h.channels]
  | messageId i => exact .inl fun hd => by rwa [h.messages]
  | advisory k =>
    refine .inl fun a b _ _ c hc => ⟨?_,(h.hasMember.mp hc.2.1).1,(h.hasMember.mp hc.2.2).1⟩
    have := hc.1
    rwa [Db.Typed,h.channels] at this
  | _ => exact .inl trivial

end ZevraServer
