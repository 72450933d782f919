import ZevraServer.Refinement

/-!
# Sequence numbers

In every committed state the messages of a channel are numbered `1, 2, ..., n` in the
order of their commits, and no `send` meets the unique violation on
`(channelId, sequenceNumber)`.
-/

namespace ZevraServer

open ReadCommitted Interleaving

/-- The numbers of every channel's messages are `1, 2, ..., n`, in the order of their
insertion. -/
def Contiguous (db : Db) : Prop :=
  ∀ c, (db.messagesOf c).map (·.sequenceNumber) = List.range' 1 (db.messagesOf c).length

/-- No message was sent yet. -/
structure Fresh (w : World) : Prop extends Start w where
  messages : w.pg.db.messages = []
  previews : ∀ r ∈ w.pg.db.channels, r.lastMessageId = none ∧ r.lastMessageAt = none

namespace Contiguous

variable {db db' : Db}

theorem foldl_max_range' (n : ℕ) : (List.range' 1 n).foldl max 0 = n := by
  induction n with
  | zero => rfl
  | succ n ih =>
    rw [List.range'_concat,List.foldl_append,ih]
    simp only [List.foldl_cons,List.foldl_nil]
    omega

theorem maxSequence (h : Contiguous db) (c : Uuid) : db.maxSequence c = (db.messagesOf c).length := by
  rw [Db.maxSequence,h c,foldl_max_range']

/-- A number of the channel names one message. -/
theorem unique (h : Contiguous db) {m m' : MessageRow} (hm : m ∈ db.messages) (hm' : m' ∈ db.messages)
    (hc : m'.channelId = m.channelId) (hs : m'.sequenceNumber = m.sequenceNumber) : m' = m := by
  have hnd : ((db.messagesOf m.channelId).map (·.sequenceNumber)).Nodup := by
    rw [h m.channelId]
    exact List.nodup_range'
  exact List.inj_on_of_nodup_map hnd (by simp [Db.messagesOf,hm',hc]) (by simp [Db.messagesOf,hm]) hs

theorem mem_iff (h : Contiguous db) (c : Uuid) (n : ℕ) :
    (∃ m ∈ db.messages, m.channelId = c ∧ m.sequenceNumber = n) ↔
      1 ≤ n ∧ n ≤ (db.messagesOf c).length := by
  have hmem : n ∈ (db.messagesOf c).map (·.sequenceNumber) ↔ 1 ≤ n ∧ n ≤ (db.messagesOf c).length := by
    rw [h c,List.mem_range'_1]
    omega
  rw [← hmem]
  simp [Db.messagesOf,and_assoc]

theorem of_messages (h : Contiguous db) (he : db'.messages = db.messages) : Contiguous db' := by
  intro c
  simpa only [Db.messagesOf,he] using h c

theorem sent {m : MessageRow} (h : Contiguous db) (hs : Sent m db db') : Contiguous db' := by
  intro c
  by_cases hc : c = m.channelId
  · subst hc
    have hrows : db'.messagesOf m.channelId = db.messagesOf m.channelId++[m] := by
      simp [Db.messagesOf,hs.messages]
    rw [hrows,List.map_append,h m.channelId,List.length_append,List.length_singleton,List.range'_concat]
    simp only [List.map_cons,List.map_nil,hs.number,h.maxSequence]
    congr 2
    omega
  · rw [(hs.frozen hc).messages]
    exact h c

/-- The message just sent has the greatest number. -/
theorem maxSequence_sent {m : MessageRow} (h : Contiguous db) (hs : Sent m db db') :
    db'.maxSequence m.channelId = m.sequenceNumber := by
  rw [(h.sent hs).maxSequence,hs.number,h.maxSequence]
  simp [Db.messagesOf,hs.messages]

theorem deleted {m c : Uuid} (h : Contiguous db) (hd : Deleted m c db db') : Contiguous db' := by
  intro d
  have hrows : db'.messagesOf d = (db.messagesOf d).map (·.wipeIf m) := by
    simp [Db.messagesOf,hd.messages,List.filter_map,Function.comp_def]
  rw [hrows,List.map_map,List.length_map]
  simpa [Function.comp_def] using h d

/-- Every atomic change keeps the numbering. -/
theorem transition (h : Contiguous db) (ht : Transition db db') : Contiguous db' := by
  cases ht with
  | sent m hs => exact h.sent hs
  | deleted m c hd => exact h.deleted hd
  | created a c ids hc => exact h.of_messages hc.messages
  | added m ha => exact h.of_messages ha.messages
  | removed u c o hr => exact h.of_messages hr.messages

/-- A message that is not in the earlier table is numbered after all of its channel there. -/
theorem later (h : Contiguous db) (h' : Contiguous db') (hg : Grows db db') {m m' : MessageRow}
    (hm : m ∈ db.messages) (hm' : m' ∈ db'.messages) (hc : m'.channelId = m.channelId)
    (hnew : ∀ r ∈ db.messages, r.id ≠ m'.id) : m.sequenceNumber < m'.sequenceNumber := by
  by_contra hle
  have hn := (h.mem_iff m.channelId m.sequenceNumber).mp ⟨m,hm,rfl,rfl⟩
  have hn' := (h'.mem_iff m'.channelId m'.sequenceNumber).mp ⟨m',hm',rfl,rfl⟩
  obtain ⟨r,hr,hrc,hrs⟩ := (h.mem_iff m.channelId m'.sequenceNumber).mpr ⟨hn'.1,by omega⟩
  rcases hg.messages r hr with hr' | hr'
  · have heq := h'.unique hr' hm' (hc.trans hrc.symm) hrs.symm
    exact hnew r hr (by rw [heq])
  · have heq := h'.unique hr' hm' (hc.trans hrc.symm) hrs.symm
    exact hnew r hr (by rw [heq]; rfl)

end Contiguous

variable {x : Externals} {w : World} {d : Server} {ok : Server → Action → Prop}

theorem Fresh.contiguous (h : Fresh w) : Contiguous w.pg.db := by
  intro c
  simp [Db.messagesOf,h.messages]

theorem Reach.contiguous (hok : ∀ c l, ok c l → Arrives c l) (hw : Fresh w) (h : Reach x ok w d) :
    Contiguous d.world.pg.db :=
  h.tables hok hw.toStart hw.contiguous fun _ _ _ hc ht => hc.transition ht

/-- No `send` ends, or has an attempt end, with the unique violation on its number. -/
theorem Reach.no_collision (hok : ∀ c l, ok c l → Arrives c l) (hw : Start w) (h : Reach x ok w d)
    (p : ℕ) : (∀ a, d.pool[p]? ≠ some (Call.send (.rollback a sequenceCollision))) ∧
      d.pool[p]? ≠ some (Call.send (.failed (.database sequenceCollision))) := by
  have hv := h.valid hok hw
  constructor
  · intro a hp
    have hass : _ ∧ sequenceCollision ≠ sequenceCollision := hv.holds p _ hp
    exact hass.2 rfl
  · intro hp
    have hass : _ ∧ HttpError.database sequenceCollision ≠ .database sequenceCollision := hv.holds p _ hp
    exact hass.2 rfl

/-- In every state reached from a database without messages the numbers of a channel's
messages are `1, 2, ..., n`, a message committed later has the larger number, and no
`send` fails with the unique violation on the number, whatever calls are interleaved. -/
theorem sequence_numbers_contiguous (hw : Fresh w) (h : Reach x Arrives w d) :
    (∀ c, (d.world.pg.db.messagesOf c).map (·.sequenceNumber) =
      List.range' 1 (d.world.pg.db.messagesOf c).length) ∧
    (∀ e, Run (server x) Arrives d e → ∀ m ∈ d.world.pg.db.messages, ∀ m' ∈ e.world.pg.db.messages,
      m'.channelId = m.channelId → (∀ r ∈ d.world.pg.db.messages, r.id ≠ m'.id) →
        m.sequenceNumber < m'.sequenceNumber) ∧
    ∀ p : ℕ, (∀ a, d.pool[p]? ≠ some (Call.send (.rollback a sequenceCollision))) ∧
      d.pool[p]? ≠ some (Call.send (.failed (.database sequenceCollision))) := by
  have hc := h.contiguous (fun _ _ => id) hw
  refine ⟨hc,fun e he m hm m' hm' hch hnew => ?_,h.no_collision (fun _ _ => id) hw.toStart⟩
  have hc' := Reach.contiguous (fun _ _ => id) hw (Run.trans h he)
  exact hc.later hc' (h.grows (fun _ _ => id) hw.toStart he) hm hm' hch hnew

theorem smallWorld_fresh : Fresh smallWorld := by
  refine ⟨smallWorld_start,rfl,?_⟩
  intro r hr
  simp only [smallWorld,smallDb,List.mem_singleton] at hr
  simp [hr]

/-- Two interleaved sends, one of which waits for the lock of the other. -/
def twoSends : List Action :=
  .spawn (.send (.check (note 1 10 "hi") none))::.spawn (.send (.check (note 2 10 "ho") none))::
    steps 0 3++steps 1 2++steps 0 1++.run 0 (drawing [50])::steps 0 3++steps 1 2++
    .run 1 (drawing [51])::steps 1 3

theorem sequence_numbers_contiguous_twoSends :
    ∃ d, Reach plain Arrives smallWorld d ∧
      (d.world.pg.db.messages.map fun m => (m.id,m.sequenceNumber)) = [(50,1),(51,2)] ∧
      (d.world.pg.db.messagesOf 10).map (·.sequenceNumber) =
        List.range' 1 (d.world.pg.db.messagesOf 10).length := by
  obtain ⟨d,hr,hd⟩ := Run.exists_of_exec (S := server plain) (c := ⟨smallWorld,[]⟩) arrives_sound twoSends
    (f := fun d => d.world.pg.db.messages.map fun m => (m.id,m.sequenceNumber))
    (v := [(50,1),(51,2)]) (by decide +kernel)
  exact ⟨d,hr,hd,(sequence_numbers_contiguous smallWorld_fresh hr).1 10⟩

end ZevraServer
