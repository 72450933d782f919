import ZevraServer.Server

/-!
# What a committed call does to the tables

The abstract level of the development: each writing call of the program is one
atomic change of the tables. `Sent`, `Deleted`, `Created`, `Added` and `Removed` say
when the change may happen and what the tables are afterwards; `Transition` is their
union. `Discipline` and `Outline` show that every step of the interleaved server
leaves the committed tables alone or is one of these changes.
-/

namespace ZevraServer

open ReadCommitted

/-! ### Views of the tables -/

/-- A membership row without its read watermark, which `send` moves without changing who
is a member. -/
def MembershipRow.clearRead (m : MembershipRow) : MembershipRow := { m with lastReadMessageId := none }

@[simp] theorem MembershipRow.clearRead_setLastRead (m : MembershipRow) (i j : Uuid) :
    (m.setLastRead i j).clearRead = m.clearRead := by
  unfold setLastRead
  split <;> rfl

theorem MembershipRow.clearRead_setRole (m : MembershipRow) (i c : Uuid) (role : Role) :
    (m.setRole i c role).clearRead = m.clearRead.setRole i c role := by
  by_cases h : m.id = i ∧ m.channelId = c <;> simp [setRole,clearRead,h]

@[simp] theorem MembershipRow.setRole_userId (m : MembershipRow) (i c : Uuid) (role : Role) :
    (m.setRole i c role).userId = m.userId := by
  unfold setRole
  split <;> rfl

@[simp] theorem MembershipRow.setRole_channelId (m : MembershipRow) (i c : Uuid) (role : Role) :
    (m.setRole i c role).channelId = m.channelId := by
  unfold setRole
  split <;> rfl

@[simp] theorem MessageRow.wipeIf_id (m : MessageRow) (i : Uuid) : (m.wipeIf i).id = m.id := by
  unfold wipeIf
  split <;> rfl

@[simp] theorem MessageRow.wipeIf_channelId (m : MessageRow) (i : Uuid) :
    (m.wipeIf i).channelId = m.channelId := by
  unfold wipeIf
  split <;> rfl

@[simp] theorem MessageRow.wipeIf_sequenceNumber (m : MessageRow) (i : Uuid) :
    (m.wipeIf i).sequenceNumber = m.sequenceNumber := by
  unfold wipeIf
  split <;> rfl

@[simp] theorem ChannelRow.point_id (r : ChannelRow) (c : Uuid) (i : Option Uuid) (t : Option ℕ) :
    (r.point c i t).id = r.id := by
  unfold point
  split <;> rfl

@[simp] theorem ChannelRow.point_type (r : ChannelRow) (c : Uuid) (i : Option Uuid) (t : Option ℕ) :
    (r.point c i t).type = r.type := by
  unfold point
  split <;> rfl

theorem ChannelRow.point_of_ne {r : ChannelRow} {c : Uuid} (h : r.id ≠ c) (i : Option Uuid)
    (t : Option ℕ) : r.point c i t = r := by
  simp [point,h]

namespace Db

def members (db : Db) : List MembershipRow := db.memberships.map (·.clearRead)

/-- The members of one channel. -/
def roster (db : Db) (c : Uuid) : List MembershipRow := db.members.filter fun m => m.channelId = c

def HasMember (db : Db) (u c : Uuid) : Prop := ∃ m ∈ db.members, m.userId = u ∧ m.channelId = c

def HasChannel (db : Db) (c : Uuid) : Prop := ∃ r ∈ db.channels, r.id = c

def Typed (db : Db) (c : Uuid) (t : ChannelType) : Prop := ∃ r ∈ db.channels, r.id = c ∧ r.type = t

/-- `c` is a direct channel with both users in it. -/
def Direct (db : Db) (a b c : Uuid) : Prop := db.Typed c .direct ∧ db.HasMember a c ∧ db.HasMember b c

def HasMessage (db : Db) (m c : Uuid) : Prop := ∃ r ∈ db.messages, r.id = m ∧ r.channelId = c

/-- The column `channels.lastMessageId` of a channel. -/
def lastMessageId (db : Db) (c : Uuid) : Option Uuid := (db.channel? c).bind (·.lastMessageId)

theorem hasMember_iff (db : Db) (u c : Uuid) :
    db.HasMember u c ↔ ∃ m ∈ db.memberships, m.userId = u ∧ m.channelId = c := by
  simp [HasMember,members,MembershipRow.clearRead]

theorem hasMember_iff_roster (db : Db) (u c : Uuid) :
    db.HasMember u c ↔ ∃ m ∈ db.roster c, m.userId = u := by
  simp only [HasMember,roster,List.mem_filter,decide_eq_true_eq]
  exact ⟨fun ⟨m,hm,hu,hc⟩ => ⟨m,⟨hm,hc⟩,hu⟩,fun ⟨m,⟨hm,hc⟩,hu⟩ => ⟨m,hm,hu,hc⟩⟩

theorem membership?_isSome (db : Db) (u c : Uuid) :
    (db.membership? u c).isSome ↔ db.HasMember u c := by
  simp [membership?,hasMember_iff]

theorem of_membership? {db : Db} {u c : Uuid} {r : MembershipRow} (h : db.membership? u c = some r) :
    r ∈ db.memberships ∧ r.userId = u ∧ r.channelId = c :=
  ⟨List.mem_of_find?_eq_some h,by simpa using List.find?_some h⟩

theorem mem_memberIds (db : Db) (u c : Uuid) : u ∈ db.memberIds c ↔ db.HasMember u c := by
  simp only [memberIds,membershipsOf,List.mem_map,List.mem_filter,decide_eq_true_eq,hasMember_iff]
  exact ⟨fun ⟨m,⟨hm,hc⟩,hu⟩ => ⟨m,hm,hu,hc⟩,fun ⟨m,hm,hu,hc⟩ => ⟨m,⟨hm,hc⟩,hu⟩⟩

theorem channel?_eq_none (db : Db) (c : Uuid) : db.channel? c = none ↔ ¬ db.HasChannel c := by
  simp [channel?,HasChannel]

theorem of_channel? {db : Db} {c : Uuid} {r : ChannelRow} (h : db.channel? c = some r) :
    r ∈ db.channels ∧ r.id = c :=
  ⟨List.mem_of_find?_eq_some h,by simpa using List.find?_some h⟩

theorem Typed.hasChannel {db : Db} {c : Uuid} {t : ChannelType} (h : db.Typed c t) : db.HasChannel c := by
  obtain ⟨r,hr,hc,_⟩ := h
  exact ⟨r,hr,hc⟩

theorem of_message? {db : Db} {m : Uuid} {r : MessageRow} (h : db.message? m = some r) :
    r ∈ db.messages ∧ r.id = m :=
  ⟨List.mem_of_find?_eq_some h,by simpa using List.find?_some h⟩

theorem roster_of_membershipsOf (db : Db) (c : Uuid) :
    db.roster c = (db.membershipsOf c).map (·.clearRead) := by
  simp [roster,members,membershipsOf,List.filter_map,Function.comp_def,MembershipRow.clearRead]

theorem pick_mem {α : Type} {n : ℕ} {rows : List α} {r : α} (h : pick n rows = some r) : r ∈ rows :=
  List.mem_of_getElem? h

theorem pick_eq_none {α : Type} {n : ℕ} {rows : List α} (h : pick n rows = none) : rows = [] := by
  unfold pick at h
  rcases rows with _ | ⟨r,rows⟩
  · rfl
  · have hlt : n % (r::rows).length < (r::rows).length := Nat.mod_lt _ (by simp)
    rw [List.getElem?_eq_getElem hlt] at h
    simp at h

theorem exists_first {α : Type} {le : α → α → Bool} (htotal : ∀ a b, le a b || le b a)
    (htrans : ∀ a b c, le a b → le b c → le a c) {rows : List α} (hne : rows ≠ []) :
    ∃ r, r ∈ firsts le rows := by
  suffices h : ∃ r ∈ rows, ∀ r' ∈ rows, le r r' by
    obtain ⟨r,hr,hmin⟩ := h
    exact ⟨r,List.mem_filter.mpr ⟨hr,List.all_eq_true.mpr hmin⟩⟩
  have hrefl : ∀ a, le a a := fun a => by simpa using htotal a a
  induction rows with
  | nil => exact absurd rfl hne
  | cons a rows ih =>
    rcases rows with _ | ⟨b,rows⟩
    · exact ⟨a,by simp,by simpa using hrefl a⟩
    · obtain ⟨r,hr,hmin⟩ := ih (by simp)
      rcases Bool.or_eq_true_iff.mp (htotal a r) with har | hra
      · refine ⟨a,by simp,fun r' hr' => ?_⟩
        rcases List.mem_cons.mp hr' with rfl | hr'
        · exact hrefl _
        · exact htrans _ _ _ har (hmin r' hr')
      · refine ⟨r,List.mem_cons_of_mem a hr,fun r' hr' => ?_⟩
        rcases List.mem_cons.mp hr' with rfl | hr'
        · exact hra
        · exact hmin r' hr'

end Db

/-! ### Schema constraints -/

/-- Constraints of the schema, and what a deleted message looks like. -/
structure Integrity (db : Db) : Prop where
  channelIds : (db.channels.map (·.id)).Nodup
  messageIds : (db.messages.map (·.id)).Nodup
  messageChannel : ∀ m ∈ db.messages, db.HasChannel m.channelId
  memberChannel : ∀ m ∈ db.members, db.HasChannel m.channelId
  memberKeys : (db.members.map fun m => (m.userId,m.channelId)).Nodup
  wiped : ∀ m ∈ db.messages, m.isDeleted = true → m.wipe = m

namespace Integrity

variable {db : Db} (h : Integrity db)

include h

theorem channel_unique {r s : ChannelRow} (hr : r ∈ db.channels) (hs : s ∈ db.channels)
    (hid : r.id = s.id) : r = s := List.inj_on_of_nodup_map h.channelIds hr hs hid

theorem message_unique {r s : MessageRow} (hr : r ∈ db.messages) (hs : s ∈ db.messages)
    (hid : r.id = s.id) : r = s := List.inj_on_of_nodup_map h.messageIds hr hs hid

theorem channel?_of_mem {r : ChannelRow} (hr : r ∈ db.channels) : db.channel? r.id = some r := by
  cases hc : db.channel? r.id with
  | none => exact absurd ⟨r,hr,rfl⟩ ((db.channel?_eq_none r.id).mp hc)
  | some s =>
    obtain ⟨hs,hid⟩ := Db.of_channel? hc
    rw [h.channel_unique hs hr hid]

theorem message?_of_mem {r : MessageRow} (hr : r ∈ db.messages) : db.message? r.id = some r := by
  cases hc : db.message? r.id with
  | none =>
    simp only [Db.message?,List.find?_eq_none,decide_eq_true_eq] at hc
    exact absurd rfl (hc r hr)
  | some s =>
    obtain ⟨hs,hid⟩ := Db.of_message? hc
    rw [h.message_unique hs hr hid]

theorem typed_unique {c : Uuid} {t t' : ChannelType} (ht : db.Typed c t) (ht' : db.Typed c t') :
    t = t' := by
  obtain ⟨r,hr,hc,rfl⟩ := ht
  obtain ⟨s,hs,hc',rfl⟩ := ht'
  rw [h.channel_unique hr hs (hc.trans hc'.symm)]

theorem hasMember_channel {u c : Uuid} (hm : db.HasMember u c) : db.HasChannel c := by
  obtain ⟨m,hm,_,rfl⟩ := hm
  exact h.memberChannel m hm

theorem roster_eq_nil {c : Uuid} (hc : ¬ db.HasChannel c) : db.roster c = [] := by
  simp only [Db.roster,List.filter_eq_nil_iff,decide_eq_true_eq]
  rintro m hm rfl
  exact hc (h.memberChannel m hm)

theorem messagesOf_eq_nil {c : Uuid} (hc : ¬ db.HasChannel c) : db.messagesOf c = [] := by
  simp only [Db.messagesOf,List.filter_eq_nil_iff,decide_eq_true_eq]
  rintro m hm rfl
  exact hc (h.messageChannel m hm)

end Integrity

/-- The grouped membership query finds exactly the direct channels of the pair. -/
theorem Db.mem_directChannels {db : Db} (h : Integrity db) {a b c : Uuid} (hab : a ≠ b) :
    c ∈ db.directChannels a b ↔ db.Direct a b c := by
  have hrows : ∀ m, m ∈ db.directRows a b ↔
      m ∈ db.memberships ∧ (m.userId = a ∨ m.userId = b) ∧ db.Typed m.channelId .direct := by
    intro m
    simp only [Db.directRows,List.mem_filter,decide_eq_true_eq,Option.any_eq_true,and_congr_right_iff]
    intro _ _
    constructor
    · rintro ⟨r,hr,ht⟩
      obtain ⟨hm,hid⟩ := Db.of_channel? hr
      exact ⟨r,hm,hid,by simpa using ht⟩
    · rintro ⟨r,hr,hid,ht⟩
      exact ⟨r,hid ▸ h.channel?_of_mem hr,by simpa using ht⟩
  set us := ((db.directRows a b).filter (·.channelId = c)).map (·.userId) with hus
  have hmem : ∀ u, u ∈ us ↔ (u = a ∨ u = b) ∧ db.HasMember u c ∧ db.Typed c .direct := by
    intro u
    simp only [hus,List.mem_map,List.mem_filter,hrows,decide_eq_true_eq,Db.hasMember_iff]
    constructor
    · rintro ⟨m,⟨⟨hm,hab,ht⟩,rfl⟩,rfl⟩
      exact ⟨hab,⟨m,hm,rfl,rfl⟩,ht⟩
    · rintro ⟨hab,⟨m,hm,rfl,rfl⟩,ht⟩
      exact ⟨m,⟨⟨hm,hab,ht⟩,rfl⟩,rfl⟩
  have hsub : us.dedup ⊆ [a,b] := by
    intro u hu
    have := (hmem u).mp (List.mem_dedup.mp hu)
    simpa using this.1
  simp only [Db.directChannels,List.mem_filter,List.mem_dedup,List.mem_map,decide_eq_true_eq]
  rw [← hus]
  constructor
  · rintro ⟨-,hlen⟩
    have hperm : us.dedup.Subperm [a,b] := List.Nodup.subperm (List.nodup_dedup us) hsub
    have hp : us.dedup.Perm [a,b] := hperm.perm_of_length_le (by simp [hlen])
    have ha := (hmem a).mp (List.mem_dedup.mp (hp.symm.subset (by simp)))
    have hb := (hmem b).mp (List.mem_dedup.mp (hp.symm.subset (by simp)))
    exact ⟨ha.2.2,ha.2.1,hb.2.1⟩
  · rintro ⟨ht,ha,hb⟩
    have hau : a ∈ us.dedup := List.mem_dedup.mpr ((hmem a).mpr ⟨.inl rfl,ha,ht⟩)
    have hbu : b ∈ us.dedup := List.mem_dedup.mpr ((hmem b).mpr ⟨.inr rfl,hb,ht⟩)
    obtain ⟨m,hm,hu,hc⟩ := (Db.hasMember_iff db a c).mp ha
    refine ⟨⟨m,(hrows m).mpr ⟨hm,.inl hu,hc ▸ ht⟩,hc⟩,?_⟩
    have hnd : [a,b].Nodup := by simp [hab]
    have hp : [a,b].Perm us.dedup := (List.perm_ext_iff_of_nodup hnd (List.nodup_dedup us)).mpr fun u =>
      ⟨fun hu => by rcases List.mem_pair.mp hu with rfl | rfl <;> assumption,fun hu => hsub hu⟩
    simpa using hp.length_eq.symm

/-! ### Atomic changes -/

/-- `send` appends one message with the next number and points the channel at it. -/
structure Sent (m : MessageRow) (db db' : Db) : Prop where
  fresh : ∀ r ∈ db.messages, r.id ≠ m.id
  channel : db.HasChannel m.channelId
  number : m.sequenceNumber = db.maxSequence m.channelId+1
  live : m.isDeleted = false
  messages : db'.messages = db.messages++[m]
  channels : db'.channels = db.channels.map (·.point m.channelId (some m.id) (some m.createdAt))
  members : db'.members = db.members

/-- What the search for the newest message but `m` returns. -/
def IsPrevious (db : Db) (m c : Uuid) : Option MessageRow → Prop
  | none => DeleteMessage.predecessors db m c = []
  | some r => r ∈ DeleteMessage.predecessors db m c

/-- `deleteMessage` moves the pointer of the channel only away from the deleted message. -/
def Repointed (m c : Uuid) (db db' : Db) : Prop :=
  db.lastMessageId c ≠ some m ∧ db'.channels = db.channels ∨
  db.lastMessageId c = some m ∧ ∃ prev, IsPrevious db m c prev ∧
    db'.channels = db.channels.map (·.point c (prev.map (·.id)) (prev.map (·.createdAt)))

structure Deleted (m c : Uuid) (db db' : Db) : Prop where
  message : db.HasMessage m c
  messages : db'.messages = db.messages.map (·.wipeIf m)
  channels : Repointed m c db db'
  members : db'.members = db.members

/-- What the checks of `create` leave of its arguments. -/
structure CreateArgs.Valid (a : CreateArgs) : Prop where
  nodup : a.memberIds.Nodup
  one : a.type = .direct → a.others.length = 1

/-- `create` adds a channel without messages; a direct one only for a pair without one. -/
structure Created (a : CreateArgs) (c : Uuid) (ids : List Uuid) (db db' : Db) : Prop where
  valid : a.Valid
  fresh : ¬ db.HasChannel c
  pair : a.type = .direct → ∀ d, ¬ db.Direct a.pair.1 a.pair.2 d
  messages : db'.messages = db.messages
  channels : db'.channels = db.channels++[a.channelRow c]
  members : db'.members = db.members++a.membershipRows c ids

/-- `addMember` adds a row to a group channel. -/
structure Added (m : MembershipRow) (db db' : Db) : Prop where
  channel : db.Typed m.channelId .group
  new : ¬ db.HasMember m.userId m.channelId
  messages : db'.messages = db.messages
  channels : db'.channels = db.channels
  members : db'.members = db.members++[m]

/-- The promotion of `removeMember`, if there is one. -/
def promoteRow (c : Uuid) : Option Uuid → MembershipRow → MembershipRow
  | none, r => r
  | some id, r => r.setRole id c .admin

@[simp] theorem promoteRow_userId (c : Uuid) (o : Option Uuid) (r : MembershipRow) :
    (promoteRow c o r).userId = r.userId := by
  cases o <;> simp [promoteRow]

@[simp] theorem promoteRow_channelId (c : Uuid) (o : Option Uuid) (r : MembershipRow) :
    (promoteRow c o r).channelId = r.channelId := by
  cases o <;> simp [promoteRow]

/-- `removeMember` deletes a row and leaves an admin behind if there was one. -/
structure Removed (u c : Uuid) (promoted : Option Uuid) (db db' : Db) : Prop where
  member : db.HasMember u c
  messages : db'.messages = db.messages
  channels : db'.channels = db.channels
  members : db'.members =
    (db.members.filter fun r => ¬(r.userId = u ∧ r.channelId = c)).map (promoteRow c promoted)
  admin : (∃ r ∈ db.roster c, r.role = .admin) → db'.roster c = [] ∨ ∃ r ∈ db'.roster c, r.role = .admin

/-- One committed call. -/
inductive Transition (db db' : Db) : Prop
  | sent (m : MessageRow) (h : Sent m db db')
  | deleted (m c : Uuid) (h : Deleted m c db db')
  | created (a : CreateArgs) (c : Uuid) (ids : List Uuid) (h : Created a c ids db db')
  | added (m : MembershipRow) (h : Added m db db')
  | removed (u c : Uuid) (promoted : Option Uuid) (h : Removed u c promoted db db')

/-! ### What every change keeps -/

/-- Channels keep their type, and a message stays or is wiped. -/
structure Grows (d e : Db) : Prop where
  channels : ∀ r ∈ d.channels, ∃ r' ∈ e.channels, r'.id = r.id ∧ r'.type = r.type
  messages : ∀ m ∈ d.messages, m ∈ e.messages ∨ m.wipe ∈ e.messages

namespace Grows

variable {d e f : Db}

theorem refl (d : Db) : Grows d d := ⟨fun r hr => ⟨r,hr,rfl,rfl⟩,fun _ hm => .inl hm⟩

theorem trans (h : Grows d e) (h' : Grows e f) : Grows d f := by
  refine ⟨fun r hr => ?_,fun m hm => ?_⟩
  · obtain ⟨s,hs,hid,ht⟩ := h.channels r hr
    obtain ⟨t,htm,hid',ht'⟩ := h'.channels s hs
    exact ⟨t,htm,hid'.trans hid,ht'.trans ht⟩
  · rcases h.messages m hm with hm | hm
    · exact h'.messages m hm
    · rcases h'.messages _ hm with hm | hm
      · exact .inr hm
      · exact .inr (by simpa [MessageRow.wipe] using hm)

theorem typed (h : Grows d e) {c : Uuid} {t : ChannelType} (ht : d.Typed c t) : e.Typed c t := by
  obtain ⟨r,hr,hc,ht⟩ := ht
  obtain ⟨s,hs,hid,hst⟩ := h.channels r hr
  exact ⟨s,hs,hid.trans hc,hst.trans ht⟩

theorem hasChannel (h : Grows d e) {c : Uuid} (hc : d.HasChannel c) : e.HasChannel c := by
  obtain ⟨r,hr,hc⟩ := hc
  obtain ⟨s,hs,hid,_⟩ := h.channels r hr
  exact ⟨s,hs,hid.trans hc⟩

theorem hasMessage (h : Grows d e) {m c : Uuid} (hm : d.HasMessage m c) : e.HasMessage m c := by
  obtain ⟨r,hr,hid,hc⟩ := hm
  rcases h.messages r hr with hr | hr
  · exact ⟨r,hr,hid,hc⟩
  · exact ⟨r.wipe,hr,hid,hc⟩

end Grows

/-- Where the messages stay, the constraints on channels and members are left to show. -/
theorem Integrity.of_messages {d e : Db} (hi : Integrity d) (hg : Grows d e) (hm : e.messages = d.messages)
    (hc : (e.channels.map (·.id)).Nodup) (hmc : ∀ m ∈ e.members, e.HasChannel m.channelId)
    (hk : (e.members.map fun m => (m.userId,m.channelId)).Nodup) : Integrity e := by
  refine ⟨hc,?_,?_,hmc,hk,?_⟩
  · rw [hm]
    exact hi.messageIds
  · rw [hm]
    exact fun r hr => hg.hasChannel (hi.messageChannel r hr)
  · rw [hm]
    exact hi.wiped

/-- Where the members stay, the constraints on channels and messages are left to show. -/
theorem Integrity.of_members {d e : Db} (hi : Integrity d) (hg : Grows d e) (hm : e.members = d.members)
    (hc : (e.channels.map (·.id)).Nodup) (hids : (e.messages.map (·.id)).Nodup)
    (hmc : ∀ m ∈ e.messages, e.HasChannel m.channelId) (hw : ∀ m ∈ e.messages, m.isDeleted = true → m.wipe = m) :
    Integrity e := by
  refine ⟨hc,hids,hmc,?_,?_,hw⟩
  · rw [hm]
    exact fun r hr => hg.hasChannel (hi.memberChannel r hr)
  · rw [hm]
    exact hi.memberKeys

theorem Db.hasChannel_congr {d e : Db} (h : e.channels.map (·.id) = d.channels.map (·.id)) (c : Uuid) :
    e.HasChannel c ↔ d.HasChannel c := by
  have hiff : ∀ db : Db, db.HasChannel c ↔ c ∈ db.channels.map (·.id) := fun db => by
    simp [Db.HasChannel]
  rw [hiff,hiff,h]

theorem Db.map_point_id (l : List ChannelRow) (c : Uuid) (i : Option Uuid) (t : Option ℕ) :
    (l.map (·.point c i t)).map (·.id) = l.map (·.id) := by
  simp [Function.comp_def]

theorem Repointed.ids {m c : Uuid} {db db' : Db} (h : Repointed m c db db') :
    db'.channels.map (·.id) = db.channels.map (·.id) := by
  rcases h with ⟨_,h⟩ | ⟨_,prev,_,h⟩
  · rw [h]
  · rw [h,Db.map_point_id]

/-- A map that keeps ids and types keeps the channels. -/
theorem Grows.channels_of_point (db : Db) (c : Uuid) (i : Option Uuid) (t : Option ℕ) :
    ∀ r ∈ db.channels, ∃ r' ∈ db.channels.map (·.point c i t), r'.id = r.id ∧ r'.type = r.type :=
  fun r hr => ⟨r.point c i t,List.mem_map_of_mem hr,by simp,by simp⟩

theorem MessageRow.mem_wipeIf {l : List MessageRow} {m : MessageRow} (hm : m ∈ l) (i : Uuid) :
    m ∈ l.map (·.wipeIf i) ∨ m.wipe ∈ l.map (·.wipeIf i) := by
  by_cases h : m.id = i
  · exact .inr (List.mem_map.mpr ⟨m,hm,by simp [MessageRow.wipeIf,h]⟩)
  · exact .inl (List.mem_map.mpr ⟨m,hm,by simp [MessageRow.wipeIf,h]⟩)

theorem CreateArgs.rows_keys (a : CreateArgs) (c : Uuid) (ids : List Uuid) :
    (a.membershipRows c ids).map (fun m => (m.userId,m.channelId)) = a.memberIds.map fun u => (u,c) := by
  simp only [CreateArgs.membershipRows,CreateArgs.memberIds,List.map_cons,newMembership,
    List.cons.injEq,true_and]
  apply List.ext_getElem <;> simp

namespace Transition

variable {db db' : Db}

theorem grows (h : Transition db db') : Grows db db' := by
  cases h with
  | sent m h =>
    refine ⟨?_,fun m hm => .inl (by simp [h.messages,hm])⟩
    rw [h.channels]
    exact Grows.channels_of_point db _ _ _
  | deleted m c h =>
    refine ⟨?_,fun m' hm => ?_⟩
    · rcases h.channels with ⟨_,hc⟩ | ⟨_,prev,_,hc⟩
      · rw [hc]
        exact (Grows.refl db).channels
      · rw [hc]
        exact Grows.channels_of_point db _ _ _
    · rw [h.messages]
      exact MessageRow.mem_wipeIf hm m
  | created a c ids h =>
    exact ⟨fun r hr => ⟨r,by simp [h.channels,hr],rfl,rfl⟩,fun m hm => .inl (by rw [h.messages]; exact hm)⟩
  | added m h =>
    exact ⟨fun r hr => ⟨r,by rw [h.channels]; exact hr,rfl,rfl⟩,fun m hm => .inl (by rw [h.messages]; exact hm)⟩
  | removed u c o h =>
    exact ⟨fun r hr => ⟨r,by rw [h.channels]; exact hr,rfl,rfl⟩,fun m hm => .inl (by rw [h.messages]; exact hm)⟩

theorem integrity (hi : Integrity db) (h : Transition db db') : Integrity db' := by
  have hg := h.grows
  cases h with
  | sent m h =>
    refine hi.of_members hg h.members ?_ ?_ ?_ ?_
    · rw [h.channels,Db.map_point_id]
      exact hi.channelIds
    · rw [h.messages,List.map_append]
      refine List.Nodup.append hi.messageIds (by simp) ?_
      intro i hi' hm
      obtain ⟨r,hr,rfl⟩ := List.mem_map.mp hi'
      exact h.fresh r hr (by simpa using hm)
    · intro r hr
      rw [h.messages] at hr
      rcases List.mem_append.mp hr with hr | hr
      · exact hg.hasChannel (hi.messageChannel r hr)
      · obtain rfl := List.mem_singleton.mp hr
        exact hg.hasChannel h.channel
    · intro r hr hd
      rw [h.messages] at hr
      rcases List.mem_append.mp hr with hr | hr
      · exact hi.wiped r hr hd
      · obtain rfl := List.mem_singleton.mp hr
        simp [h.live] at hd
  | deleted m c h =>
    refine hi.of_members hg h.members ?_ ?_ ?_ ?_
    · rw [h.channels.ids]
      exact hi.channelIds
    · rw [h.messages]
      simpa [Function.comp_def] using hi.messageIds
    · intro r hr
      rw [h.messages] at hr
      obtain ⟨s,hs,rfl⟩ := List.mem_map.mp hr
      exact hg.hasChannel (by simpa using hi.messageChannel s hs)
    · intro r hr hd
      rw [h.messages] at hr
      obtain ⟨s,hs,rfl⟩ := List.mem_map.mp hr
      unfold MessageRow.wipeIf at hd ⊢
      split
      · rfl
      · rename_i hne
        rw [if_neg hne] at hd
        exact hi.wiped s hs hd
  | created a c ids h =>
    refine hi.of_messages hg h.messages ?_ ?_ ?_
    · rw [h.channels,List.map_append]
      refine List.Nodup.append hi.channelIds (by simp) ?_
      intro i hi' hm
      obtain ⟨r,hr,rfl⟩ := List.mem_map.mp hi'
      exact h.fresh ⟨r,hr,by simpa [CreateArgs.channelRow] using hm⟩
    · intro r hr
      rw [h.members] at hr
      rcases List.mem_append.mp hr with hr | hr
      · exact hg.hasChannel (hi.memberChannel r hr)
      · have hk := List.mem_map_of_mem (f := fun m : MembershipRow => (m.userId,m.channelId)) hr
        rw [CreateArgs.rows_keys] at hk
        obtain ⟨u,_,hu⟩ := List.mem_map.mp hk
        obtain ⟨_,hc⟩ := Prod.mk.inj hu
        exact ⟨a.channelRow c,by simp [h.channels],hc⟩
    · rw [h.members,List.map_append,CreateArgs.rows_keys]
      refine List.Nodup.append hi.memberKeys ?_ ?_
      · exact h.valid.nodup.map fun u v huv => (Prod.mk.inj huv).1
      · intro k hk hk'
        obtain ⟨r,hr,rfl⟩ := List.mem_map.mp hk
        obtain ⟨u,_,hu⟩ := List.mem_map.mp hk'
        obtain ⟨_,hc⟩ := Prod.mk.inj hu
        exact h.fresh (hc ▸ hi.memberChannel r hr)
  | added m h =>
    refine hi.of_messages hg h.messages (by rw [h.channels]; exact hi.channelIds) ?_ ?_
    · intro r hr
      rw [h.members] at hr
      rcases List.mem_append.mp hr with hr | hr
      · exact hg.hasChannel (hi.memberChannel r hr)
      · obtain rfl := List.mem_singleton.mp hr
        exact hg.hasChannel h.channel.hasChannel
    · rw [h.members,List.map_append]
      refine List.Nodup.append hi.memberKeys (by simp) ?_
      intro k hk hk'
      obtain ⟨r,hr,rfl⟩ := List.mem_map.mp hk
      have := List.mem_singleton.mp hk'
      obtain ⟨hu,hc⟩ := Prod.mk.inj this
      exact h.new ⟨r,hr,hu,hc⟩
  | removed u c o h =>
    refine hi.of_messages hg h.messages (by rw [h.channels]; exact hi.channelIds) ?_ ?_
    · intro r hr
      rw [h.members] at hr
      obtain ⟨s,hs,rfl⟩ := List.mem_map.mp hr
      exact hg.hasChannel (by simpa using hi.memberChannel s (List.mem_of_mem_filter hs))
    · rw [h.members,List.map_map]
      have heq : ((fun m : MembershipRow => (m.userId,m.channelId)) ∘ promoteRow c o) =
          fun m => (m.userId,m.channelId) := by
        funext m
        simp
      rw [heq]
      exact hi.memberKeys.sublist (List.filter_sublist.map _)

end Transition

end ZevraServer
