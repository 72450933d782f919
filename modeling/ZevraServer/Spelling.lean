import ZevraServer.RawIds
import ZevraServer.Tables

/-!
# The spelling of identifiers

An operation does the same for two spellings of its arguments if they agree on the ids
it uses as text. The ids it only hands to Postgres may be spelled in any way.
-/

namespace ZevraServer

/-- Spelled as Postgres spells it. -/
def RawId.Lower (i : RawId) : Prop := i.toLower = i

instance (i : RawId) : Decidable (RawId.Lower i) := inferInstanceAs (Decidable (i.toLower = i))

namespace Raw

/-- The operation with every id in lower case. -/
def Op.folded : Op → Op
  | .create u ids type name socket => .create u.toLower (ids.map (·.toLower)) type name socket
  | .addMember c r u role => .addMember c.toLower r.toLower u.toLower role
  | .removeMember c r u => .removeMember c.toLower r.toLower u.toLower
  | .markRead u c m => .markRead u.toLower c.toLower m.toLower
  | .joinChannel s c => .joinChannel s c.toLower
  | .invite s t => .invite s t.toLower
  | .initiate s group ts c => .initiate s group (ts.map (·.toLower)) (c.map (·.toLower))

/-- The ids an operation uses as text: in a key, a room, a room name or a comparison; `none`
if it is refused in every state. A `create` that names a user twice is refused, and so are an
`addMember` of the requester, who is a member, and a call to a target not in lower case, whose
presence key is never set. The requester of a removal counts if it is the target. -/
def Op.seen : Op → Option (List RawId)
  | .create u ids type _ _ =>
    match checkParticipantIds u ids type with
    | .error _ => none
    | .ok (_,others) => if ((u::others).map Uuid.ofText).Nodup then some (u::others) else none
  | .addMember c r u _ => if Uuid.ofText r = Uuid.ofText u then none else some [c,u]
  | .removeMember c r u => some (if r = u then [c,u,r] else [c,u])
  | .markRead u c _ => some [u,c]
  | .joinChannel _ c => some [c]
  | .invite _ t => if RawId.Lower t then some [t] else none
  | .initiate _ true _ c => some c.toList
  | .initiate _ false ts _ => if ts.head?.all (RawId.Lower ·) then some ts.head?.toList else none

/-- The ids used as text are in lower case. -/
def Action.Lower : Action → Prop
  | .op o => ∀ ids, o.seen = some ids → ∀ i ∈ ids, RawId.Lower i
  | .leaveChannel _ c => RawId.Lower c
  | _ => True

/-- Keys, rooms and socket users are in lower case, and every socket is in its personal room. -/
structure Spelled (σ : State) : Prop where
  users : (σ.db.users.map (·.id)).Nodup
  keys : ∀ k, σ.redis.channelMembers k ≠ [] → RawId.Lower k
  presence : ∀ k, σ.redis.presence k = true → RawId.Lower k
  sockets : ∀ s ∈ σ.sockets, RawId.Lower s.user ∧ .user s.user ∈ s.rooms ∧
    ∀ c, .channel c ∈ s.rooms → RawId.Lower c

end Raw

/-! ### Text and value -/

theorem Uuid.ofText_congr {s t : RawId} (h : s.toLower = t.toLower) : ofText s = ofText t := by
  rw [ofText,ofText,h]

theorem isUuid_congr {s t : RawId} (h : s.toLower = t.toLower) : isUuid s = isUuid t := by
  rw [isUuid,isUuid,h]

theorem all_isUuid_congr {l l' : List RawId} (h : l.map (·.toLower) = l'.map (·.toLower)) :
    l.all isUuid = l'.all isUuid := by
  induction l generalizing l' with
  | nil =>
    obtain rfl := List.map_eq_nil_iff.mp h.symm
    rfl
  | cons s l ih =>
    cases l' with
    | nil => simp at h
    | cons t l' =>
      obtain ⟨hs,hl⟩ := List.cons.inj h
      rw [List.all_cons,List.all_cons,isUuid_congr hs,ih hl]

theorem toLower_of_mem_hexDigits : ∀ d ∈ '-'::hexDigits, d.toLower = d := by
  simp only [hexDigits,List.forall_mem_cons,List.not_mem_nil,false_implies,implies_true,and_true]
  exact ⟨rfl,rfl,rfl,rfl,rfl,rfl,rfl,rfl,rfl,rfl,rfl,rfl,rfl,rfl,rfl,rfl,rfl⟩

theorem Uuid.mem_digits {u : Uuid} {d : Char} (h : d ∈ u.digits) : d ∈ hexDigits := by
  obtain ⟨i,_,rfl⟩ := List.mem_map.mp h
  have hlt : u/16^(31-i) % 16 < hexDigits.length := Nat.mod_lt _ (by decide)
  rw [List.getD_eq_getElem?_getD,List.getElem?_eq_getElem hlt]
  exact List.getElem_mem hlt

/-- Postgres writes lower case. -/
theorem Uuid.text_lower (u : Uuid) : RawId.Lower (text u) := by
  have hmap : ∀ l : List Char, (∀ d ∈ l, d ∈ '-'::hexDigits) → l.map Char.toLower = l := by
    intro l hl
    conv_rhs => rw [← List.map_id l]
    exact List.map_congr_left fun d hd => toLower_of_mem_hexDigits d (hl d hd)
  have hdigit : ∀ d ∈ u.digits, d ∈ '-'::hexDigits := fun d hd => List.mem_cons_of_mem _ (mem_digits hd)
  unfold RawId.Lower text String.toLower
  rw [← String.toList_inj,String.toList_map,String.toList_ofList]
  refine hmap _ fun d hd => ?_
  simp only [List.mem_append,List.mem_cons,List.append_assoc] at hd
  rcases hd with hd | (rfl | hd) | (rfl | hd) | (rfl | hd) | rfl | hd
  · exact hdigit d (List.mem_of_mem_take hd)
  · exact List.mem_cons_self
  · exact hdigit d (List.mem_of_mem_drop (List.mem_of_mem_take hd))
  · exact List.mem_cons_self
  · exact hdigit d (List.mem_of_mem_drop (List.mem_of_mem_take hd))
  · exact List.mem_cons_self
  · exact hdigit d (List.mem_of_mem_drop (List.mem_of_mem_take hd))
  · exact List.mem_cons_self
  · exact hdigit d (List.mem_of_mem_drop hd)

/-! ### Refused in every state -/

/-- Rows inserted by one statement have distinct keys. -/
theorem nodup_of_membershipsViolation {db : Db} {ms : List MembershipRow}
    (h : membershipsViolation db ms = none) : (ms.map fun m => (m.userId,m.channelId)).Nodup ∧
      ∀ m ∈ ms, ∀ r ∈ db.memberships, ¬(r.userId = m.userId ∧ r.channelId = m.channelId) := by
  induction ms generalizing db with
  | nil => simp
  | cons m ms ih =>
    simp only [membershipsViolation] at h
    split at h
    · simp at h
    · rename_i hm
      obtain ⟨hnodup,hnew⟩ := ih h
      have hkey : ¬∃ r ∈ db.memberships, r.userId = m.userId ∧ r.channelId = m.channelId := by
        intro hex
        simp only [membershipViolation,if_pos hex] at hm
        split at hm <;> simp at hm
      refine ⟨List.nodup_cons.mpr ⟨fun hin => ?_,hnodup⟩,fun k hk r hr => ?_⟩
      · obtain ⟨k,hk,he⟩ := List.mem_map.mp hin
        obtain ⟨hu,hc⟩ := Prod.mk.inj he
        exact hnew k hk m (List.mem_append_right _ (List.mem_singleton_self _)) ⟨hu.symm,hc.symm⟩
      · rcases List.mem_cons.mp hk with rfl | hk
        · exact fun he => hkey ⟨r,hr,he⟩
        · exact hnew k hk r (List.mem_append_left _ hr)

/-- No direct channel has one user twice. -/
theorem Db.directChannels_self (db : Db) (a : Uuid) : db.directChannels a a = [] := by
  refine List.filter_eq_nil_iff.mpr fun c _ => ?_
  have hall : ∀ u ∈ ((db.directRows a a).filter (·.channelId = c)).map (·.userId), u = a := by
    intro u hu
    obtain ⟨m,hm,rfl⟩ := List.mem_map.mp hu
    have hrow := (List.mem_filter.mp (List.mem_filter.mp hm).1).2
    simp only [or_self,decide_eq_true_eq] at hrow
    exact hrow.1
  have hle : (((db.directRows a a).filter (·.channelId = c)).map (·.userId)).dedup.length ≤ [a].length :=
    ((List.nodup_dedup _).subperm fun u hu => by
      simp [hall u (List.mem_dedup.mp hu)]).length_le
  simp only [List.length_singleton] at hle
  simp only [decide_eq_true_eq]
  omega

/-- Ids that all belong to users of the table are distinct. -/
theorem Db.nodup_of_activeAmong {db : Db} (hu : (db.users.map (·.id)).Nodup) {ids : List Uuid}
    (h : (db.activeAmong ids).length = ids.length) : ids.Nodup := by
  have hsub : (db.activeAmong ids).map (·.id) ⊆ ids.dedup := by
    intro i hi
    obtain ⟨r,hr,rfl⟩ := List.mem_map.mp hi
    exact List.mem_dedup.mpr (of_decide_eq_true (List.mem_filter.mp hr).2).1
  have hnd : ((db.activeAmong ids).map (·.id)).Nodup :=
    hu.sublist (List.Sublist.map _ (List.filter_sublist ..))
  have hle := (hnd.subperm hsub).length_le
  rw [List.length_map,h] at hle
  rw [← (List.dedup_sublist ids).eq_of_length_le hle]
  exact List.nodup_dedup ids

namespace Raw

variable {e : Setting} {σ : State}

theorem createChecked_unseen (hu : (σ.db.users.map (·.id)).Nodup) {u : RawId} {others : List RawId}
    {type : ChannelType} {name : Option String} {socket : Option ℕ}
    (hone : type = .direct → others.length = 1) (hdup : ¬((u::others).map Uuid.ofText).Nodup) :
    (σ.createChecked e u others type name socket).1 = σ := by
  unfold State.createChecked
  by_cases hlen : (σ.db.activeAmong (others.map Uuid.ofText)).length = others.length
  · have hnodup : (others.map Uuid.ofText).Nodup :=
      Db.nodup_of_activeAmong hu (by rw [List.length_map]; exact hlen)
    have hself : Uuid.ofText u ∈ others.map Uuid.ofText := by
      by_contra hno
      exact hdup (List.nodup_cons.mpr ⟨hno,hnodup⟩)
    have hnone : σ.existingDirect e (State.createArgs e u others type name socket) = none := by
      unfold State.existingDirect
      split_ifs with ht
      · obtain ⟨t,rfl⟩ := List.length_eq_one_iff.mp (hone ht)
        have he : Uuid.ofText u = Uuid.ofText t := by simpa using hself
        simp [State.createArgs,CreateArgs.pair,he,Db.directChannels_self,Db.pick]
      · rfl
    simp only [hnone]
    split_ifs
    · rfl
    split
    · rfl
    · rename_i db id hins
      simp only [State.insertChannel] at hins
      split_ifs at hins
      split at hins
      · simp at hins
      · rename_i hviol
        have hkeys := (nodup_of_membershipsViolation hviol).1
        rw [CreateArgs.rows_keys] at hkeys
        exact absurd (List.Nodup.of_map _ hkeys) hdup
  · exact congrArg Prod.fst (if_pos hlen)

theorem create_unseen (hu : (σ.db.users.map (·.id)).Nodup) {u : RawId} {ids : List RawId}
    {type : Option ChannelType} {name : Option String} {socket : Option ℕ}
    (h : (Op.create u ids type name socket).seen = none) : (σ.create e u ids type name socket).1 = σ := by
  unfold State.create
  rcases hcheck : checkParticipantIds u ids type with err | ⟨t,others⟩
  · rfl
  · simp only [Op.seen,hcheck] at h
    split_ifs at h with hdup
    exact createChecked_unseen hu (of_checkParticipantIds hcheck).2.2 hdup

theorem addMember_unseen {c r u : RawId} {role : Option Role} (h : Uuid.ofText r = Uuid.ofText u) :
    (σ.addMember e c r u role).1 = σ := by
  unfold State.addMember
  by_cases hrole : σ.getRole c r = some .admin
  · have hmem : ∃ m ∈ σ.db.memberships, m.userId = Uuid.ofText u ∧ m.channelId = Uuid.ofText c := by
      rw [State.getRole,h] at hrole
      obtain ⟨m,hm,_⟩ := Option.map_eq_some_iff.mp hrole
      obtain ⟨hin,hkey⟩ := Db.of_membership? hm
      exact ⟨m,hin,hkey⟩
    simp only [hrole,ne_eq,not_true_eq_false,if_false,if_pos hmem]
    split
    · rfl
    · split_ifs <;> rfl
  · exact congrArg Prod.fst (if_pos hrole)

theorem ring_unseen (hp : ∀ k, σ.redis.presence k = true → RawId.Lower k) {u t : RawId}
    {c : Option RawId} (h : ¬ RawId.Lower t) : (σ.ring e u t c).1 = σ := by
  have hoff : σ.isOnline e t = false := by
    rw [State.isOnline,Bool.and_eq_false_iff]
    exact .inr (by simpa using mt (hp t) h)
  unfold State.ring
  split_ifs with hbusy hon
  · rfl
  · rfl
  · simp [hoff] at hon

/-! ### The same for two spellings -/

theorem of_seen_create {u : RawId} {ids l : List RawId} {type : Option ChannelType} {name : Option String}
    {socket : Option ℕ} (h : (Op.create u ids type name socket).seen = some l) :
    ∃ t others, checkParticipantIds u ids type = .ok (t,others) ∧ type = some t ∧ l = u::others := by
  simp only [Op.seen] at h
  split at h
  · simp at h
  · rename_i t others hcheck
    split_ifs at h
    exact ⟨t,others,hcheck,(of_checkParticipantIds hcheck).1,(Option.some.inj h).symm⟩

theorem create_spelling (hu : (σ.db.users.map (·.id)).Nodup) {u u' : RawId} {ids ids' : List RawId}
    {type : Option ChannelType} {name : Option String} {socket : Option ℕ}
    (h : (Op.create u ids type name socket).seen = (Op.create u' ids' type name socket).seen) :
    (σ.create e u ids type name socket).1 = (σ.create e u' ids' type name socket).1 := by
  rcases hseen : (Op.create u ids type name socket).seen with _ | l
  · rw [create_unseen hu hseen,create_unseen hu (h.symm.trans hseen)]
  · obtain ⟨t,others,hcheck,ht,rfl⟩ := of_seen_create hseen
    obtain ⟨t',others',hcheck',ht',he⟩ := of_seen_create (h.symm.trans hseen)
    obtain ⟨rfl,rfl⟩ := List.cons.inj he
    obtain rfl := Option.some.inj (ht.symm.trans ht')
    simp only [State.create,hcheck,hcheck']

theorem addMember_spelling {c c' r r' u u' : RawId} {role : Option Role} (hr : r.toLower = r'.toLower)
    (h : (Op.addMember c r u role).seen = (Op.addMember c' r' u' role).seen) :
    (σ.addMember e c r u role).1 = (σ.addMember e c' r' u' role).1 := by
  simp only [Op.seen] at h
  split_ifs at h with hself hself'
  · rw [addMember_unseen hself,addMember_unseen hself']
  · obtain ⟨rfl,hrest⟩ := List.cons.inj (Option.some.inj h)
    obtain ⟨rfl,_⟩ := List.cons.inj hrest
    simp only [State.addMember,State.getRole,Uuid.ofText_congr hr]

theorem removeMember_spelling {c c' r r' u u' : RawId} (hr : r.toLower = r'.toLower)
    (h : (Op.removeMember c r u).seen = (Op.removeMember c' r' u').seen) :
    (σ.removeMember e c r u).1 = (σ.removeMember e c' r' u').1 := by
  have hl := Option.some.inj h
  by_cases hself : r = u <;> by_cases hself' : r' = u'
  · rw [if_pos hself,if_pos hself'] at hl
    obtain ⟨rfl,hrest⟩ := List.cons.inj hl
    obtain ⟨rfl,_⟩ := List.cons.inj hrest
    rw [hself,hself']
  · simp [hself,hself'] at hl
  · simp [hself,hself'] at hl
  · rw [if_neg hself,if_neg hself'] at hl
    obtain ⟨rfl,hrest⟩ := List.cons.inj hl
    obtain ⟨rfl,_⟩ := List.cons.inj hrest
    simp only [State.removeMember,State.getRole,Uuid.ofText_congr hr,ne_eq,hself,hself',not_false_eq_true,
      true_and]

theorem markRead_spelling {u u' c c' m m' : RawId} (hm : m.toLower = m'.toLower)
    (h : (Op.markRead u c m).seen = (Op.markRead u' c' m').seen) :
    (σ.markRead e u c m).1 = (σ.markRead e u' c' m').1 := by
  obtain ⟨rfl,hrest⟩ := List.cons.inj (Option.some.inj h)
  obtain ⟨rfl,_⟩ := List.cons.inj hrest
  simp only [State.markRead,Uuid.ofText_congr hm]

theorem handleInvite_spelling (hp : ∀ k, σ.redis.presence k = true → RawId.Lower k) {s : ℕ} {t t' : RawId}
    (h : (Op.invite s t).seen = (Op.invite s t').seen) :
    (σ.handleInvite e s t).1 = (σ.handleInvite e s t').1 := by
  have hunseen : ∀ k, ¬ RawId.Lower k → (σ.handleInvite e s k).1 = σ := by
    intro k hk
    unfold State.handleInvite
    split
    · rfl
    · split_ifs
      · rfl
      · rfl
      · rfl
      · exact ring_unseen hp hk
  by_cases ht : RawId.Lower t <;> by_cases ht' : RawId.Lower t' <;> simp only [Op.seen,ht,ht',if_true,if_false] at h
  · obtain ⟨rfl,_⟩ := List.cons.inj (Option.some.inj h)
    rfl
  · simp at h
  · simp at h
  · rw [hunseen t ht,hunseen t' ht']

theorem length_of_map_toLower {l l' : List RawId} (h : l.map (·.toLower) = l'.map (·.toLower)) :
    l.length = l'.length := by
  simpa using congrArg List.length h

/-- A group call uses the text of the channel id only. -/
theorem handleInitiate_group_spelling {s : ℕ} {ts ts' : List RawId} {c c' : Option RawId}
    (hts : ts.map (·.toLower) = ts'.map (·.toLower))
    (h : (Op.initiate s true ts c).seen = (Op.initiate s true ts' c').seen) :
    (σ.handleInitiate e s true ts c).1 = (σ.handleInitiate e s true ts' c').1 := by
  obtain rfl : c = c' := by
    cases c <;> cases c' <;> simp_all [Op.seen]
  simp only [State.handleInitiate,length_of_map_toLower hts,all_isUuid_congr hts,if_true]

/-- A call log does not see how the callee and the channel are spelled. -/
theorem createCallLog_spelling {type : CallType} {u : RawId} {t t' : Option RawId} {room : Option String}
    {c c' : Option RawId} (ht : t.map Uuid.ofText = t'.map Uuid.ofText)
    (hc : c.map Uuid.ofText = c'.map Uuid.ofText) :
    σ.createCallLog e type u t room c = σ.createCallLog e type u t' room c' := by
  simp only [State.createCallLog,ht,hc]

theorem ring_spelling {u t : RawId} {c c' : Option RawId} (hc : c.map Uuid.ofText = c'.map Uuid.ofText) :
    σ.ring e u t c = σ.ring e u t c' := by
  simp only [State.ring,createCallLog_spelling rfl hc]

/-- A direct call uses the text of the first target only. -/
theorem handleInitiate_direct_spelling (hp : ∀ k, σ.redis.presence k = true → RawId.Lower k) {s : ℕ}
    {ts ts' : List RawId} {c c' : Option RawId} (hts : ts.map (·.toLower) = ts'.map (·.toLower))
    (hc : c.map (·.toLower) = c'.map (·.toLower))
    (h : (Op.initiate s false ts c).seen = (Op.initiate s false ts' c').seen) :
    (σ.handleInitiate e s false ts c).1 = (σ.handleInitiate e s false ts' c').1 := by
  obtain ⟨hvalid,hvalue⟩ : c.all isUuid = c'.all isUuid ∧ c.map Uuid.ofText = c'.map Uuid.ofText := by
    cases c <;> cases c' <;> simp only [Option.map_none,Option.map_some,reduceCtorEq] at hc
    · exact ⟨rfl,rfl⟩
    · have he := Option.some.inj hc
      exact ⟨isUuid_congr he,congrArg some (Uuid.ofText_congr he)⟩
  have hunseen : ∀ (l : List RawId) (d : Option RawId), ¬ l.head?.all (RawId.Lower ·) →
      (σ.handleInitiate e s false l d).1 = σ := by
    intro l d hl
    cases l with
    | nil => simp at hl
    | cons t l =>
      have ht : ¬ RawId.Lower t := by simpa using hl
      unfold State.handleInitiate
      split
      · rfl
      · simp only [List.head?_cons]
        split_ifs
        · rfl
        · rfl
        · rfl
        · rfl
        · contradiction
        · rfl
        · exact ring_unseen hp ht
  by_cases hl : ts.head?.all (RawId.Lower ·) <;> by_cases hl' : ts'.head?.all (RawId.Lower ·) <;>
    simp only [Op.seen,hl,hl',if_true] at h
  · have hhead : ts.head? = ts'.head? := by
      have hlist := Option.some.inj h
      revert hlist
      cases ts.head? <;> cases ts'.head? <;> simp
    simp only [State.handleInitiate,length_of_map_toLower hts,all_isUuid_congr hts,hvalid,hhead,
      ring_spelling hvalue,Bool.false_eq_true,if_false]
  · simp at h
  · simp at h
  · rw [hunseen ts c hl,hunseen ts' c' hl']

/-- In a spelled state an operation does the same for two spellings of its arguments that agree
on the ids it uses as text. -/
theorem Op.spelling (hσ : Spelled σ) {o o' : Op} (hfold : o.folded = o'.folded) (hseen : o.seen = o'.seen) :
    (o.run e σ).1 = (o'.run e σ).1 := by
  cases o with
  | create u ids type name socket =>
    cases o' with
    | create u' ids' type' name' socket' =>
      obtain ⟨_,_,rfl,rfl,rfl⟩ := Op.create.inj hfold
      exact create_spelling hσ.users hseen
    | _ => simp [folded] at hfold
  | addMember c r u role =>
    cases o' with
    | addMember c' r' u' role' =>
      obtain ⟨_,hr,_,rfl⟩ := Op.addMember.inj hfold
      exact addMember_spelling hr hseen
    | _ => simp [folded] at hfold
  | removeMember c r u =>
    cases o' with
    | removeMember c' r' u' => exact removeMember_spelling (Op.removeMember.inj hfold).2.1 hseen
    | _ => simp [folded] at hfold
  | markRead u c m =>
    cases o' with
    | markRead u' c' m' => exact markRead_spelling (Op.markRead.inj hfold).2.2 hseen
    | _ => simp [folded] at hfold
  | joinChannel s c =>
    cases o' with
    | joinChannel s' c' =>
      obtain ⟨rfl,_⟩ := Op.joinChannel.inj hfold
      obtain ⟨rfl,_⟩ := List.cons.inj (Option.some.inj hseen)
      rfl
    | _ => simp [folded] at hfold
  | invite s t =>
    cases o' with
    | invite s' t' =>
      obtain ⟨rfl,_⟩ := Op.invite.inj hfold
      exact handleInvite_spelling hσ.presence hseen
    | _ => simp [folded] at hfold
  | initiate s group ts c =>
    cases o' with
    | initiate s' group' ts' c' =>
      obtain ⟨rfl,rfl,hts,hc⟩ := Op.initiate.inj hfold
      cases group with
      | false => exact handleInitiate_direct_spelling hσ.presence hts hc hseen
      | true => exact handleInitiate_group_spelling hts hseen
    | _ => simp [folded] at hfold

/-! ### Runs -/

theorem Socket.mem_join {s : Socket} {r r' : Room} : r' ∈ (s.join r).rooms ↔ r' ∈ s.rooms ∨ r' = r := by
  unfold Socket.join
  split
  · rename_i hin
    refine ⟨.inl,?_⟩
    rintro (h | rfl)
    · exact h
    · exact hin
  · simp

theorem Socket.join_user (s : Socket) (r : Room) : (s.join r).user = s.user := by
  unfold Socket.join
  split <;> rfl

/-- What the invariant says of one socket. -/
def Socket.Spelled (s : Socket) : Prop :=
  RawId.Lower s.user ∧ .user s.user ∈ s.rooms ∧ ∀ c, .channel c ∈ s.rooms → RawId.Lower c

theorem Socket.Spelled.join {s : Socket} {c : RawId} (h : s.Spelled) (hc : RawId.Lower c) :
    (s.join (.channel c)).Spelled := by
  refine ⟨?_,?_,fun c' hc' => ?_⟩
  · rw [Socket.join_user]
    exact h.1
  · rw [Socket.join_user]
    exact Socket.mem_join.mpr (.inl h.2.1)
  · rcases Socket.mem_join.mp hc' with hin | he
    · exact h.2.2 c' hin
    · rw [Room.channel.inj he]
      exact hc

theorem Socket.Spelled.leave {s : Socket} (h : s.Spelled) (c : RawId) : (s.leave (.channel c)).Spelled :=
  ⟨h.1,List.mem_filter.mpr ⟨h.2.1,by simp⟩,fun c' hc' => h.2.2 c' (List.mem_filter.mp hc').1⟩

namespace Spelled

variable {c : RawId}

/-- The invariant reads the users, the member keys, the presence keys and the sockets. -/
theorem congr {σ' : State} (h : Spelled σ) (hu : σ'.db.users = σ.db.users)
    (hk : σ'.redis.channelMembers = σ.redis.channelMembers) (hp : σ'.redis.presence = σ.redis.presence)
    (hs : σ'.sockets = σ.sockets) : Spelled σ' :=
  ⟨by rw [hu]; exact h.users,by rw [hk]; exact h.keys,by rw [hp]; exact h.presence,
    by rw [hs]; exact h.sockets⟩

theorem setMembers (h : Spelled σ) (hc : RawId.Lower c) (ids : List RawId) :
    Spelled (σ.setMembers e c ids) := by
  unfold State.setMembers
  split
  · refine ⟨h.users,fun k hk => ?_,h.presence,h.sockets⟩
    by_cases he : k = c
    · rw [he]
      exact hc
    · exact h.keys k (by simpa [Function.update_of_ne he] using hk)
  · exact h

theorem dropMembers (h : Spelled σ) (c : RawId) :
    Spelled { σ with redis.channelMembers := Function.update σ.redis.channelMembers c [] } := by
  refine ⟨h.users,fun k hk => ?_,h.presence,h.sockets⟩
  by_cases he : k = c
  · simp [he] at hk
  · exact h.keys k (by simpa [Function.update_of_ne he] using hk)

theorem invalidate (h : Spelled σ) (c : RawId) : Spelled (σ.invalidate e c) := by
  unfold State.invalidate
  split
  · exact h.dropMembers c
  · exact h

theorem resetUnread (h : Spelled σ) (u c : RawId) : Spelled (σ.resetUnread e u c) := by
  unfold State.resetUnread
  split
  · exact h.congr rfl rfl rfl rfl
  · exact h

/-- Each socket is kept or replaced. -/
theorem mapSockets {f : Socket → Socket} (h : Spelled σ) (hf : ∀ s, s.Spelled → (f s).Spelled) :
    Spelled { σ with sockets := σ.sockets.map f } := by
  refine ⟨h.users,h.keys,h.presence,fun s hs => ?_⟩
  obtain ⟨k,hk,rfl⟩ := List.mem_map.mp hs
  exact hf k (h.sockets k hk)

theorem joinUsersToChannel (h : Spelled σ) (hc : RawId.Lower c) (ids : List RawId) :
    Spelled (σ.joinUsersToChannel ids c) := by
  refine h.mapSockets fun s hs => ?_
  split
  · exact hs.join hc
  · exact hs

theorem removeUserFromChannel (h : Spelled σ) (u c : RawId) : Spelled (σ.removeUserFromChannel u c) := by
  refine h.mapSockets fun s hs => ?_
  split
  · exact hs.leave c
  · exact hs

theorem onSocket {f : Socket → Socket} (h : Spelled σ) (i : ℕ) (hf : ∀ s, s.Spelled → (f s).Spelled) :
    Spelled (σ.onSocket i f) := by
  refine h.mapSockets fun s hs => ?_
  split
  · exact hf s hs
  · exact hs

theorem joinClient (h : Spelled σ) (hc : RawId.Lower c) (socket : Option ℕ) :
    Spelled (σ.joinClient socket c) := by
  cases socket with
  | none => exact h
  | some i => exact h.onSocket i fun s hs => hs.join hc

theorem getMembers (h : Spelled σ) (hc : RawId.Lower c) : Spelled (σ.getMembers e c).2 := by
  unfold State.getMembers
  split
  · exact h
  · exact h.setMembers hc _

theorem isMember (h : Spelled σ) (hc : RawId.Lower c) (u : RawId) : Spelled (σ.isMember e c u).2 := by
  unfold State.isMember
  split_ifs
  · exact h
  · exact h.getMembers hc
  · exact h

theorem moveRoom (h : Spelled σ) (hc : RawId.Lower c) {move : Socket → Room → Socket}
    (hmove : ∀ s, s.Spelled → (move s (.channel c)).Spelled) (i : ℕ) :
    Spelled (σ.moveRoom e i c move).1 := by
  unfold State.moveRoom
  split
  · exact h
  · rename_i k _
    have hreq : Spelled (σ.requireMember e c k.user).1 := h.isMember hc k.user
    split
    · rename_i σ' err he
      rw [he] at hreq
      exact hreq
    · rename_i σ' he
      rw [he] at hreq
      exact hreq.onSocket i hmove

theorem insertChannel_users {a : CreateArgs} {db db' : Db} {id : Uuid}
    (h : State.insertChannel e a db = .ok (db',id)) : db'.users = db.users := by
  have hrows : ∀ (rows : List MembershipRow) (d : Db),
      (rows.foldl (fun db m => db.apply (.insertMembership m)) d).users = d.users := by
    intro rows
    induction rows with
    | nil => exact fun d => rfl
    | cons m rows ih => exact fun d => ih _
  simp only [State.insertChannel] at h
  split_ifs at h
  split at h
  · simp at h
  · obtain ⟨rfl,_⟩ := Prod.mk.inj (Except.ok.inj h)
    exact hrows _ _

theorem createChecked (h : Spelled σ) (u : RawId) (others : List RawId) (type : ChannelType)
    (name : Option String) (socket : Option ℕ) :
    Spelled (σ.createChecked e u others type name socket).1 := by
  unfold State.createChecked
  simp only
  split
  · exact h
  · split
    · split
      · exact h
      · exact (h.joinUsersToChannel (Uuid.text_lower _) _).joinClient (Uuid.text_lower _) socket
    · split
      · exact h
      · rename_i db id hins
        have hdb : Spelled { σ with db := db } := h.congr (insertChannel_users hins) rfl rfl rfl
        exact (((hdb.setMembers (Uuid.text_lower id) _).joinUsersToChannel (Uuid.text_lower id) _).joinClient
          (Uuid.text_lower id) socket)

theorem create (h : Spelled σ) (u : RawId) (ids : List RawId) (type : Option ChannelType)
    (name : Option String) (socket : Option ℕ) : Spelled (σ.create e u ids type name socket).1 := by
  unfold State.create
  split
  · exact h
  · exact h.createChecked _ _ _ _ _

theorem addMember (h : Spelled σ) {r u : RawId} (hc : Uuid.ofText r ≠ Uuid.ofText u → RawId.Lower c)
    (role : Option Role) : Spelled (σ.addMember e c r u role).1 := by
  by_cases hself : Uuid.ofText r = Uuid.ofText u
  · rw [addMember_unseen hself]
    exact h
  · unfold State.addMember
    simp only
    split
    · exact h
    · split
      · exact h
      · split
        · exact h
        · split
          · exact h
          · split
            · exact h
            · split
              · exact h
              · split
                · exact h
                · refine (Spelled.invalidate ?_ c).joinUsersToChannel (hc hself) _
                  exact h.congr rfl rfl rfl rfl

theorem removeRow_users (removed : MembershipRow) (u c : Uuid) (db : Db) :
    (State.removeRow e removed u c db).users = db.users := by
  unfold State.removeRow
  simp only
  split
  · split <;> rfl
  · rfl

theorem removeMember (h : Spelled σ) (c r u : RawId) : Spelled (σ.removeMember e c r u).1 := by
  unfold State.removeMember
  simp only
  split
  · exact h
  · split
    · exact h
    · rename_i removed _
      have hdb : Spelled { σ with db := State.removeRow e removed (.ofText u) (.ofText c) σ.db } :=
        h.congr (removeRow_users _ _ _ _) rfl rfl rfl
      exact ((hdb.invalidate c).resetUnread u c).removeUserFromChannel u c

theorem insertRead (h : Spelled σ) (r : ReadRow) : Spelled (σ.insertRead r) := by
  unfold State.insertRead
  split
  · exact h
  · exact h.congr rfl rfl rfl rfl

theorem markRead (h : Spelled σ) (u c m : RawId) : Spelled (σ.markRead e u c m).1 := by
  unfold State.markRead
  simp only
  split
  · exact h
  · split
    · exact h
    · split
      · refine (Spelled.resetUnread ?_ u c).insertRead _
        exact h.congr rfl rfl rfl rfl
      · exact h.resetUnread u c

theorem createCallLog {type : CallType} {u : RawId} {t : Option RawId} {room : Option String}
    {k : Option RawId} {σ' : State} {id : Uuid} (h : Spelled σ)
    (hlog : σ.createCallLog e type u t room k = .ok (σ',id)) : Spelled σ' := by
  simp only [State.createCallLog] at hlog
  split_ifs at hlog
  obtain ⟨rfl,_⟩ := Prod.mk.inj (Except.ok.inj hlog)
  exact h.congr rfl rfl rfl rfl

theorem ring (h : Spelled σ) (u t : RawId) (k : Option RawId) : Spelled (σ.ring e u t k).1 := by
  unfold State.ring
  split
  · exact h
  · split
    · exact h
    · split
      · exact h
      · rename_i σ' id hlog
        have hσ' := h.createCallLog hlog
        simp only [State.createCall]
        split
        · exact hσ'.congr rfl rfl rfl rfl
        · exact hσ'

theorem handleInvite (h : Spelled σ) (i : ℕ) (t : RawId) : Spelled (σ.handleInvite e i t).1 := by
  unfold State.handleInvite
  split
  · exact h
  · split_ifs
    · exact h
    · exact h
    · exact h
    · exact h.ring _ _ _

theorem handleInitiate (h : Spelled σ) (i : ℕ) (group : Bool) (ts : List RawId) (k : Option RawId) :
    Spelled (σ.handleInitiate e i group ts k).1 := by
  unfold State.handleInitiate
  split
  · exact h
  · split
    · exact h
    · split
      · exact h
      · split
        · exact h
        · split
          · exact h
          · split
            · split
              · exact h
              · split
                · exact h
                · unfold State.initiateLiveKitGroupCall
                  split
                  · exact h
                  · split
                    · exact h
                    · rename_i hlog
                      exact h.createCallLog hlog
            · split
              · exact h
              · split
                · exact h
                · exact h.ring _ _ _

/-- One operation keeps the invariant. -/
theorem op {o : Op} (h : Spelled σ) (ho : (Action.op o).Lower) : Spelled (o.run e σ).1 := by
  cases o with
  | create u ids type name socket => exact h.create u ids type name socket
  | addMember c r u role =>
    refine h.addMember (fun hself => ho [c,u] ?_ c (by simp)) role
    simp only [Op.seen,if_neg hself]
  | removeMember c r u => exact h.removeMember c r u
  | markRead u c m => exact h.markRead u c m
  | joinChannel i c =>
    have hc : RawId.Lower c := ho [c] rfl c (by simp)
    exact h.moveRoom hc (fun s hs => hs.join hc) i
  | invite i t => exact h.handleInvite i t
  | initiate i group ts k => exact h.handleInitiate i group ts k

theorem action {a : Action} (h : Spelled σ) (ha : a.Lower) : Spelled (a.run e σ) := by
  cases a with
  | op o => exact h.op ha
  | connect u =>
    simp only [Action.run,State.handleConnection]
    split
    · exact h
    · refine ⟨h.users,h.keys,fun k hk => ?_,fun s hs => ?_⟩
      · simp only at hk
        split at hk
        · by_cases he : k = Uuid.text u
          · rw [he]
            exact Uuid.text_lower u
          · exact h.presence k (by simpa [Function.update_of_ne he] using hk)
        · exact h.presence k hk
      · rcases List.mem_append.mp hs with hs | hs
        · exact h.sockets s hs
        · obtain rfl := List.mem_singleton.mp hs
          refine ⟨Uuid.text_lower u,List.mem_cons_self,fun c hc => ?_⟩
          rcases List.mem_cons.mp hc with he | hc
          · simp at he
          · obtain ⟨c',_,he⟩ := List.mem_map.mp hc
            rw [← Room.channel.inj he]
            exact Uuid.text_lower c'
  | disconnect i => exact ⟨h.users,h.keys,h.presence,fun s hs => h.sockets s (List.mem_filter.mp hs).1⟩
  | leaveChannel i c => exact h.moveRoom ha (fun s hs => hs.leave c) i
  | send m =>
    simp only [Action.run,State.deliver]
    split
    · exact h
    · have hdb : Spelled { σ with db := σ.db.apply (.insertMessage m) } := h.congr rfl rfl rfl rfl
      have hget := hdb.getMembers (e := e) (Uuid.text_lower m.channelId)
      split
      · exact hget.congr rfl rfl rfl rfl
      · exact hget
  | expireMembers c => exact h.dropMembers c
  | expirePresence u =>
    refine ⟨h.users,h.keys,fun k hk => ?_,h.sockets⟩
    by_cases he : k = u
    · simp [Action.run,he] at hk
    · exact h.presence k (by simpa [Action.run,Function.update_of_ne he] using hk)
  | expireCall i => exact h.congr rfl rfl rfl rfl

theorem after (h : Spelled σ) {as : List (Setting × Action)} (has : ∀ a ∈ as, a.2.Lower) :
    Spelled (σ.after as) := by
  induction as generalizing σ with
  | nil => exact h
  | cons a as ih =>
    exact ih (h.action (has a List.mem_cons_self)) fun b hb => has b (List.mem_cons_of_mem _ hb)

end Spelled

/-- A state at the start: the tables have one row for each user id, and nobody is connected. -/
structure Fresh (σ : State) : Prop where
  users : (σ.db.users.map (·.id)).Nodup
  members : ∀ k, σ.redis.channelMembers k = []
  presence : ∀ k, σ.redis.presence k = false
  sockets : σ.sockets = []

theorem Fresh.spelled (h : Fresh σ) : Spelled σ :=
  ⟨h.users,fun k hk => absurd (h.members k) hk,fun k hk => by simp [h.presence k] at hk,
    by simp [h.sockets]⟩

/-- After a removal whose ids are in lower case no socket of the user is in the channel's room
and the user is not in the cached member set, in whatever case room and key are looked up. -/
theorem removeMember_leaves (hσ : Spelled σ) {c r u : RawId} (hc : RawId.Lower c) (hu : RawId.Lower u)
    (hdone : (σ.removeMember e c r u).2 = none) :
    (∀ s ∈ (σ.removeMember e c r u).1.sockets, s.user.toLower = u.toLower →
      ∀ k, k.toLower = c.toLower → .channel k ∉ s.rooms) ∧
    (e.redis = true → ∀ k, k.toLower = c.toLower →
      u ∉ (σ.removeMember e c r u).1.redis.channelMembers k) := by
  have hafter : Spelled (σ.removeMember e c r u).1 := hσ.removeMember c r u
  revert hdone hafter
  unfold State.removeMember
  simp only
  split
  · simp
  · split
    · simp
    · intro _ hafter
      refine ⟨fun s hs huser k hk hin => ?_,fun hredis k hk hin => ?_⟩
      · have hspelled := hafter.sockets s hs
        obtain ⟨s',hs',rfl⟩ := List.mem_map.mp hs
        have hlower : k = c := ((hspelled.2.2 k hin).symm.trans hk).trans hc
        split at hin
        · rw [hlower] at hin
          simp [Socket.leave] at hin
        · rename_i hno
          rw [if_neg hno] at hspelled huser
          have he : s'.user = u := (hspelled.1.symm.trans huser).trans hu
          exact hno (he ▸ hspelled.2.1)
      · have hkey : RawId.Lower k := hafter.keys k (List.ne_nil_of_mem hin)
        have hlower : k = c := (hkey.symm.trans hk).trans hc
        rw [hlower] at hin
        simp [State.removeUserFromChannel,State.resetUnread,State.invalidate,hredis] at hin

/-- In every run whose actions spell the ids they use as text in lower case, every operation
leads to the same rows, keys and rooms for any two spellings of its arguments that agree on
the ids it uses as text, and a removal whose channel and user are in lower case leaves no
socket of the user in the room and no entry in the cached member set. -/
theorem spelling_does_not_matter (h₀ : Fresh σ) {as : List (Setting × Action)}
    (has : ∀ a ∈ as, a.2.Lower) (e : Setting) :
    (∀ o o' : Op, o.folded = o'.folded → o.seen = o'.seen →
      (o.run e (σ.after as)).1 = (o'.run e (σ.after as)).1) ∧
    ∀ c r u, RawId.Lower c → RawId.Lower u →
      ((Op.removeMember c r u).run e (σ.after as)).2 = none →
      (∀ s ∈ ((Op.removeMember c r u).run e (σ.after as)).1.sockets, s.user.toLower = u.toLower →
        ∀ k, k.toLower = c.toLower → .channel k ∉ s.rooms) ∧
      (e.redis = true → ∀ k, k.toLower = c.toLower →
        u ∉ ((Op.removeMember c r u).run e (σ.after as)).1.redis.channelMembers k) := by
  have hσ := h₀.spelled.after has
  exact ⟨fun o o' hfold hseen => Op.spelling hσ hfold hseen,
    fun c r u hc hu hdone => removeMember_leaves hσ hc hu hdone⟩

/-! ### A channel spelled in capitals -/

def adaId : RawId := "00000000-0000-4000-8000-00000000000b"

/-- The same UUID in capitals. -/
def adaId' : RawId := "00000000-0000-4000-8000-00000000000B"

def benId : RawId := "00000000-0000-4000-8000-000000000002"

def teamId : RawId := "00000000-0000-4000-8000-00000000000a"

/-- The same UUID in capitals. -/
def teamId' : RawId := "00000000-0000-4000-8000-00000000000A"

def ada : Uuid := 0x4000800000000000000b

def ben : Uuid := 0x40008000000000000002

def theTeam : Uuid := 0x4000800000000000000a

theorem ids_read : Uuid.ofText adaId = ada ∧ Uuid.ofText benId = ben ∧
    Uuid.ofText teamId = theTeam ∧ Uuid.ofText teamId' = theTeam := by
  decide +kernel

theorem ids_written : Uuid.text ada = adaId ∧ Uuid.text ben = benId ∧
    Uuid.text theTeam = teamId := by
  decide +kernel

theorem ids_lower : adaId.toLower = adaId ∧ adaId'.toLower = adaId ∧ benId.toLower = benId ∧
    teamId.toLower = teamId ∧ teamId'.toLower = teamId := by
  decide +kernel

theorem ids_differ : adaId ≠ benId ∧ adaId' ≠ benId ∧ teamId ≠ teamId' := by
  decide +kernel

/-- Two users and their group channel, before anybody connects. -/
def teamDb : Db where
  users := [⟨ada,"ada","",true⟩,⟨ben,"ben","",true⟩]
  channels := [⟨theTeam,some "team",.group,false,none,none,0⟩]
  memberships := [⟨100,.admin,0,none,ada,theTeam⟩,⟨101,.member,1,none,ben,theTeam⟩]
  messages := []
  reactions := []

def team : State where
  db := teamDb
  reads := []
  callLogs := []
  redis := ⟨fun _ => [],fun _ _ => 0,fun _ => false,fun _ => none,fun _ => none⟩
  sockets := []
  connections := 0

def quiet : Setting := ⟨true,true,true,[],5,0⟩

/-- The second user connects and joins the room of the channel, which fills the cache. -/
def benJoins : List (Setting × Action) :=
  [(quiet,.connect ben),(quiet,.op (.joinChannel 0 teamId))]

theorem after_benJoins : team.after benJoins =
    { team with
      redis.channelMembers := Function.update (fun _ => []) teamId [adaId,benId]
      redis.presence := Function.update (fun _ => false) benId true
      sockets := [⟨0,benId,[.user benId,.channel teamId]⟩]
      connections := 1 } := by
  have hdb : (teamDb.user? ben).isNone = false := by decide +kernel
  have hids : teamDb.channelIdsOf ben = [theTeam] := by decide +kernel
  have hmem : teamDb.memberIds theTeam = [ada,ben] := by decide +kernel
  have hdedup : [adaId,benId].dedup = [adaId,benId] := by decide +kernel
  simp [State.after,benJoins,Action.run,Op.run,State.handleConnection,-Option.isNone_iff_eq_none,hdb,hids,quiet,ids_written,
    State.handleJoinChannel,State.moveRoom,State.socket?,State.requireMember,State.isMember,State.getMembers,
    ids_read,hmem,State.setMembers,State.onSocket,Socket.join,team,hdedup]

theorem team_fresh : Fresh team := ⟨by decide +kernel,fun _ => rfl,fun _ => rfl,rfl⟩

theorem teamId_lower : RawId.Lower teamId := ids_lower.2.2.2.1

theorem benId_lower : RawId.Lower benId := ids_lower.2.2.1

theorem teamId_ne : teamId ≠ teamId' := ids_differ.2.2

theorem benJoins_lower : ∀ a ∈ benJoins, a.2.Lower := by
  intro a ha
  simp only [benJoins,List.mem_cons,List.not_mem_nil,or_false] at ha
  rcases ha with rfl | rfl
  · trivial
  · intro ids hids i hi
    obtain rfl := Option.some.inj hids
    obtain rfl := List.mem_singleton.mp hi
    exact teamId_lower

/-- The removal of the second user by the first, with the channel spelled in one of the two
ways. -/
theorem removal_of_ben {c : RawId} (hc : Uuid.ofText c = theTeam) :
    ((Op.removeMember c adaId benId).run quiet (team.after benJoins)).2 = none ∧
    ((Op.removeMember c adaId benId).run quiet (team.after benJoins)).1.sockets =
      [(⟨0,benId,[.user benId,.channel teamId]⟩ : Socket).leave (.channel c)] ∧
    ((Op.removeMember c adaId benId).run quiet (team.after benJoins)).1.redis.channelMembers =
      Function.update (Function.update (fun _ => []) teamId [adaId,benId]) c [] := by
  have hadmin : (teamDb.membership? ada theTeam).map (·.role) = some .admin := by decide +kernel
  obtain ⟨removed,hben⟩ := Option.isSome_iff_exists.mp (show (teamDb.membership? ben theTeam).isSome by
    decide +kernel)
  rw [after_benJoins]
  simp [Op.run,State.removeMember,State.getRole,hc,ids_read,team,hadmin,hben,quiet,
    State.invalidate,State.resetUnread,State.removeUserFromChannel]

theorem spelling_does_not_matter_requester :
    ((Op.removeMember teamId adaId' benId).run quiet (team.after benJoins)).1 =
      ((Op.removeMember teamId adaId benId).run quiet (team.after benJoins)).1 ∧
    (∀ s ∈ ((Op.removeMember teamId adaId benId).run quiet (team.after benJoins)).1.sockets,
      s.user.toLower = benId.toLower → ∀ k, k.toLower = teamId.toLower → .channel k ∉ s.rooms) ∧
    ∀ k, k.toLower = teamId.toLower →
      benId ∉ ((Op.removeMember teamId adaId benId).run quiet (team.after benJoins)).1.redis.channelMembers k := by
  have h := spelling_does_not_matter team_fresh benJoins_lower quiet
  have hfold : adaId'.toLower = adaId := ids_lower.2.1
  have hfold' : adaId.toLower = adaId := ids_lower.1
  have hne : adaId ≠ benId ∧ adaId' ≠ benId := ⟨ids_differ.1,ids_differ.2.1⟩
  have hleft := h.2 teamId adaId benId teamId_lower benId_lower (removal_of_ben ids_read.2.2.1).1
  exact ⟨h.1 _ _ (by simp [Op.folded,hfold,hfold']) (by simp [Op.seen,hne]),hleft.1,hleft.2 rfl⟩

/-- With the channel in capitals the removal deletes the row, and the user's socket stays in
the room and the user in the cached member set; in lower case both are gone. -/
theorem spelling_matters :
    (∀ a ∈ benJoins, a.2.Lower) ∧
    (Op.removeMember teamId adaId benId).folded = (Op.removeMember teamId' adaId benId).folded ∧
    ((Op.removeMember teamId' adaId benId).run quiet (team.after benJoins)).2 = none ∧
    ((Op.removeMember teamId' adaId benId).run quiet (team.after benJoins)).1 ≠
      ((Op.removeMember teamId adaId benId).run quiet (team.after benJoins)).1 ∧
    (∃ s ∈ ((Op.removeMember teamId' adaId benId).run quiet (team.after benJoins)).1.sockets,
      s.user = benId ∧ .channel teamId ∈ s.rooms) ∧
    benId ∈ ((Op.removeMember teamId' adaId benId).run quiet (team.after benJoins)).1.redis.channelMembers teamId := by
  obtain ⟨hdone,hsockets,hkeys⟩ := removal_of_ben ids_read.2.2.2
  have hkept : benId ∈
      ((Op.removeMember teamId' adaId benId).run quiet (team.after benJoins)).1.redis.channelMembers teamId := by
    simp [hkeys,Function.update_of_ne teamId_ne]
  have hfold : teamId'.toLower = teamId := ids_lower.2.2.2.2
  have hfold' : teamId.toLower = teamId := teamId_lower
  refine ⟨benJoins_lower,by simp [Op.folded,hfold,hfold'],hdone,fun he => ?_,?_,hkept⟩
  · rw [he,(removal_of_ben ids_read.2.2.1).2.2] at hkept
    simp at hkept
  · rw [hsockets]
    exact ⟨_,List.mem_singleton_self _,rfl,List.mem_filter.mpr ⟨by simp,by simpa using teamId_ne⟩⟩

end Raw

end ZevraServer
