import ZevraServer.Sequence

/-!
# The channel preview

In every committed state `lastMessageId` and `lastMessageAt` of a channel name its
newest undeleted message, and are null exactly when it has none.
-/

namespace ZevraServer

open ReadCommitted Interleaving

/-- The channel row points at the newest of the given messages that is not deleted. -/
def PointsAtNewest (messages : List MessageRow) (r : ChannelRow) : Prop :=
  (∀ m ∈ messages, m.isDeleted = true) ∧ r.lastMessageId = none ∧ r.lastMessageAt = none ∨
  ∃ m ∈ messages, m.isDeleted = false ∧
    (∀ m' ∈ messages, m'.isDeleted = false → m'.sequenceNumber ≤ m.sequenceNumber) ∧
    r.lastMessageId = some m.id ∧ r.lastMessageAt = some m.createdAt

def Previews (db : Db) : Prop := ∀ r ∈ db.channels, PointsAtNewest (db.messagesOf r.id) r

namespace Previews

variable {db db' : Db}

theorem of_same (h : Previews db) (hm : db'.messages = db.messages) (hc : db'.channels = db.channels) :
    Previews db' := by
  intro r hr
  rw [hc] at hr
  simpa only [Db.messagesOf,hm] using h r hr

/-- A channel row of the sender's channel points at the new message. -/
theorem sent {m : MessageRow} (h : Previews db) (hs : Sent m db db') : Previews db' := by
  intro r hr
  rw [hs.channels] at hr
  obtain ⟨s,hs',rfl⟩ := List.mem_map.mp hr
  by_cases hc : s.id = m.channelId
  · have hrows : db'.messagesOf m.channelId = db.messagesOf m.channelId++[m] := by
      simp [Db.messagesOf,hs.messages]
    rw [ChannelRow.point_id,hc,hrows]
    refine .inr ⟨m,by simp,hs.live,fun m' hm' _ => ?_,by simp [ChannelRow.point,hc],
      by simp [ChannelRow.point,hc]⟩
    rcases List.mem_append.mp hm' with hm' | hm'
    · obtain ⟨hm',hch⟩ := List.mem_filter.mp hm'
      have hle := db.le_maxSequence hm'
      rw [of_decide_eq_true hch] at hle
      rw [hs.number]
      omega
    · rw [List.mem_singleton.mp hm']
  · rw [ChannelRow.point_of_ne hc,(hs.frozen hc).messages]
    exact h s hs'

theorem mem_messagesOf_deleted {m c : Uuid} (hd : Deleted m c db db') {d : Uuid} {r : MessageRow} :
    r ∈ db'.messagesOf d ↔ ∃ s ∈ db.messagesOf d, s.wipeIf m = r := by
  simp [Db.messagesOf,hd.messages,List.filter_map,Function.comp_def]

/-- What is undeleted after a deletion was there before and is another message. -/
theorem live_of_deleted {m c : Uuid} (hd : Deleted m c db db') {d : Uuid} {r : MessageRow}
    (hr : r ∈ db'.messagesOf d) (hlive : r.isDeleted = false) : r ∈ db.messagesOf d ∧ r.id ≠ m := by
  obtain ⟨s,hs,rfl⟩ := (mem_messagesOf_deleted hd).mp hr
  by_cases he : s.id = m
  · simp [MessageRow.wipeIf,he,MessageRow.wipe] at hlive
  · simpa [MessageRow.wipeIf,he] using hs

theorem mem_of_ne {m c : Uuid} (hd : Deleted m c db db') {d : Uuid} {r : MessageRow}
    (hr : r ∈ db.messagesOf d) (hne : r.id ≠ m) : r ∈ db'.messagesOf d :=
  (mem_messagesOf_deleted hd).mpr ⟨r,hr,by simp [MessageRow.wipeIf,hne]⟩

theorem mem_predecessors {m c : Uuid} {r : MessageRow} :
    r ∈ DeleteMessage.predecessors db m c ↔ (r ∈ db.messagesOf c ∧ r.isDeleted = false ∧ r.id ≠ m) ∧
      ∀ s ∈ db.messagesOf c, s.isDeleted = false → s.id ≠ m → s.sequenceNumber ≤ r.sequenceNumber := by
  simp only [DeleteMessage.predecessors,Db.firsts,List.mem_filter,List.all_eq_true,decide_eq_true_eq]
  refine and_congr_right fun _ => ?_
  exact ⟨fun h s hs hl hne => h s ⟨hs,hl,hne⟩,fun h s hs => h s hs.1 hs.2.1 hs.2.2⟩

theorem predecessors_ne_nil {m c : Uuid} {r : MessageRow} (hr : r ∈ db.messagesOf c)
    (hlive : r.isDeleted = false) (hne : r.id ≠ m) : DeleteMessage.predecessors db m c ≠ [] := by
  have hrows : (db.messagesOf c).filter (fun r => decide (r.isDeleted = false ∧ r.id ≠ m)) ≠ [] :=
    List.ne_nil_of_mem (List.mem_filter.mpr ⟨hr,by simp [hlive,hne]⟩)
  obtain ⟨s,hs⟩ : ∃ s, s ∈ DeleteMessage.predecessors db m c :=
    Db.exists_first (fun a b => by simpa using Nat.le_total _ _)
      (fun a b c hab hbc => by
        have hab := of_decide_eq_true hab
        have hbc := of_decide_eq_true hbc
        exact decide_eq_true (hbc.trans hab)) hrows
  exact List.ne_nil_of_mem hs

/-- The row of the channel, when its pointer is on another message. -/
theorem kept {m c : Uuid} (hd : Deleted m c db db') {r : ChannelRow} (hne : r.lastMessageId ≠ some m)
    (h : PointsAtNewest (db.messagesOf c) r) : PointsAtNewest (db'.messagesOf c) r := by
  rcases h with ⟨hall,hid,hat⟩ | ⟨n,hn,hlive,hmax,hid,hat⟩
  · refine .inl ⟨fun s hs => ?_,hid,hat⟩
    by_contra hs'
    obtain ⟨hold,_⟩ := live_of_deleted hd hs (by simpa using hs')
    exact hs' (hall s hold)
  · have hnm : n.id ≠ m := fun he => hne (by rw [hid,he])
    refine .inr ⟨n,mem_of_ne hd hn hnm,hlive,fun s hs hl => ?_,hid,hat⟩
    exact hmax s (live_of_deleted hd hs hl).1 hl

/-- The row of the channel, when its pointer moves to the newest message left. -/
theorem moved {m c : Uuid} (hd : Deleted m c db db') {r : ChannelRow} (hc : r.id = c)
    {prev : Option MessageRow} (hprev : IsPrevious db m c prev) :
    PointsAtNewest (db'.messagesOf c) (r.point c (prev.map (·.id)) (prev.map (·.createdAt))) := by
  cases prev with
  | none =>
    refine .inl ⟨fun s hs => ?_,by simp [ChannelRow.point,hc],by simp [ChannelRow.point,hc]⟩
    by_contra hs'
    obtain ⟨hold,hne⟩ := live_of_deleted hd hs (by simpa using hs')
    exact predecessors_ne_nil hold (by simpa using hs') hne hprev
  | some n =>
    obtain ⟨⟨hn,hlive,hne⟩,hmax⟩ := mem_predecessors.mp hprev
    refine .inr ⟨n,mem_of_ne hd hn hne,hlive,fun s hs hl => ?_,by simp [ChannelRow.point,hc],
      by simp [ChannelRow.point,hc]⟩
    obtain ⟨hold,hsm⟩ := live_of_deleted hd hs hl
    exact hmax s hold hl hsm

theorem deleted {m c : Uuid} (hi : Integrity db) (h : Previews db) (hd : Deleted m c db db') :
    Previews db' := by
  have hother : ∀ r ∈ db.channels, r.id ≠ c → PointsAtNewest (db'.messagesOf r.id) r := by
    intro r hr hc
    rw [(hd.frozen hi hc).messages]
    exact h r hr
  rcases hd.channels with ⟨hlast,hch⟩ | ⟨hlast,prev,hprev,hch⟩
  · intro r hr
    rw [hch] at hr
    by_cases hc : r.id = c
    · subst hc
      refine kept hd (fun he => hlast ?_) (h r hr)
      rw [Db.lastMessageId,hi.channel?_of_mem hr]
      exact he
    · exact hother r hr hc
  · intro r hr
    rw [hch] at hr
    obtain ⟨s,hs,rfl⟩ := List.mem_map.mp hr
    by_cases hc : s.id = c
    · rw [ChannelRow.point_id,hc]
      exact moved hd hc hprev
    · rw [ChannelRow.point_of_ne hc]
      exact hother s hs hc

theorem created {a : CreateArgs} {c : Uuid} {ids : List Uuid} (hi : Integrity db) (h : Previews db)
    (hc : Created a c ids db db') : Previews db' := by
  intro r hr
  have hmsg : db'.messagesOf r.id = db.messagesOf r.id := by
    simp only [Db.messagesOf,hc.messages]
  rw [hc.channels] at hr
  rw [hmsg]
  rcases List.mem_append.mp hr with hr | hr
  · exact h r hr
  · obtain rfl := List.mem_singleton.mp hr
    have hnone : db.messagesOf (a.channelRow c).id = [] := hi.messagesOf_eq_nil hc.fresh
    rw [hnone]
    exact .inl ⟨by simp,rfl,rfl⟩

/-- Every atomic change keeps the previews. -/
theorem transition (hi : Integrity db) (h : Previews db) (ht : Transition db db') : Previews db' := by
  cases ht with
  | sent m hs => exact h.sent hs
  | deleted m c hd => exact h.deleted hi hd
  | created a c ids hc => exact h.created hi hc
  | added m ha => exact h.of_same ha.messages ha.channels
  | removed u c o hr => exact h.of_same hr.messages hr.channels

end Previews

variable {x : Externals} {w : World} {d : Server} {ok : Server → Action → Prop}

theorem Fresh.previews_newest (h : Fresh w) : Previews w.pg.db := by
  intro r hr
  exact .inl ⟨by simp [Db.messagesOf,h.messages],h.previews r hr⟩

theorem Reach.previews_newest (hok : ∀ c l, ok c l → Arrives c l) (hw : Fresh w) (h : Reach x ok w d) :
    Previews d.world.pg.db :=
  h.tables hok hw.toStart hw.previews_newest fun _ _ hi hp ht => hp.transition hi ht

end ZevraServer
