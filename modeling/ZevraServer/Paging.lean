import ZevraServer.Pages

/-!
# Going from page to page

A client reads a channel by calling `getMessages` again with the `nextCursor` of the page
before while `hasMore` is true. Back from a cursor it reads every older message once, and
on from a cursor every newer one, whatever is sent or deleted between the calls.
-/

namespace ZevraServer

open Interleaving

/-- The arguments of the call after a page. -/
def PageArgs.next (a : PageArgs) (page : BarePage) : PageArgs :=
  { a with cursor := page.nextCursor.map fun n => (n : ℤ) }

/-- The pages of a client whose calls find the tables in one state after another. -/
def PageArgs.pages (a : PageArgs) : List Db → List BarePage
  | [] => []
  | db::dbs => a.databasePage db::if (a.databasePage db).hasMore = true
    then (a.next (a.databasePage db)).pages dbs else []

/-- The last call left nothing to read. -/
def Exhausted (pages : List BarePage) : Prop := ∃ p, pages.getLast? = some p ∧ p.hasMore = false

/-- The messages of a channel in ascending order, each by its id and number. -/
def Db.entries (db : Db) (c : Uuid) : List (Uuid × ℕ) :=
  (db.history c).map fun r => (r.id,r.sequenceNumber)

def BarePage.entries (page : BarePage) : List (Uuid × ℕ) :=
  page.messages.map fun m => (m.id,m.sequenceNumber)

/-- The tables at one call after another: the messages of the channel are numbered from
one, and stay, as they are or wiped, while others are added. -/
structure Histories (c : Uuid) (dbs : List Db) : Prop where
  numbered : ∀ db ∈ dbs, Numbered c db
  kept : dbs.IsChain fun db db' => ∀ m ∈ db.messagesOf c, m ∈ db'.messagesOf c ∨ m.wipe ∈ db'.messagesOf c

variable {a : PageArgs} {c : Uuid} {db db' : Db} {dbs : List Db}

theorem Numbered.entries (h : Numbered c db) :
    (db.entries c).map (·.2) = List.range' 1 (db.entries c).length := by
  unfold Numbered at h
  simpa [Db.entries,Function.comp_def] using h

/-! ### One page -/

theorem PageArgs.admits_before (hm : a.mode = .before) (h : Numbered a.channelId db) :
    (db.history a.channelId).filter a.admits = Keysets.below a.cursor (db.history a.channelId) := by
  rw [Keysets.below_eq_filter MessageRow.sequenceNumber a.cursor h]
  congr 1
  funext r
  unfold PageArgs.admits
  rw [hm]
  cases a.cursor <;> rfl

theorem PageArgs.admits_since (hm : a.mode = .since) (h : Numbered a.channelId db) :
    (db.history a.channelId).filter a.admits = Keysets.above a.cursor (db.history a.channelId) := by
  rw [Keysets.above_eq_filter MessageRow.sequenceNumber a.cursor h]
  congr 1
  funext r
  unfold PageArgs.admits
  rw [hm]
  cases a.cursor <;> rfl

/-- A page that looks on is the window after its cursor. -/
theorem Numbered.databasePage_newer (h : Numbered a.channelId db) (hm : a.mode = .since) :
    (a.databasePage db).messages =
      (Keysets.newer a.safeLimit a.cursor (db.history a.channelId)).items.map
        (fun r => toMessagePayload r (db.username? r.senderId)) ∧
    (a.databasePage db).nextCursor = (Keysets.newer a.safeLimit a.cursor (db.history a.channelId)).next ∧
    (a.databasePage db).hasMore =
      (Keysets.newer a.safeLimit a.cursor (db.history a.channelId)).next.isSome := by
  have hpos : 0 < a.safeLimit := safeLimit_pos a.limit
  obtain ⟨k,hk⟩ := Keysets.above_eq_drop (α := MessageRow) a.cursor
  have hdrop := hk (db.history a.channelId)
  set rows := Keysets.above a.cursor (db.history a.channelId) with hrows
  have hsorted : a.rows db = rows.take (a.safeLimit+1) := by
    simp only [PageArgs.rows,if_pos hm]
    rw [h.sort_oldest_first,a.admits_since hm h]
  have hmore : decide (a.safeLimit < (a.rows db).length) = decide (a.safeLimit < rows.length) := by
    rw [hsorted,decide_eq_decide,List.length_take]
    omega
  have hpage : (if decide (a.safeLimit < (a.rows db).length) = true then (a.rows db).take a.safeLimit
      else a.rows db) = rows.take a.safeLimit := by
    rw [hmore,hsorted]
    by_cases hlt : a.safeLimit < rows.length
    · rw [if_pos (by simpa using hlt),List.take_take,Nat.min_eq_left (by omega)]
    · rw [if_neg (by simpa using hlt),List.take_of_length_le (by omega),
        List.take_of_length_le (Nat.le_of_not_lt hlt)]
  refine ⟨?_,?_,?_⟩
  · simp only [PageArgs.databasePage,if_pos hm,Keysets.newer]
    rw [hpage]
  · simp only [PageArgs.databasePage,if_pos hm,Keysets.newer]
    rw [hpage,hmore]
    by_cases hlt : a.safeLimit < rows.length
    · have hlen : rows.length = (db.history a.channelId).length-k := by rw [hdrop,List.length_drop]
      have hlast : k+(a.safeLimit-1) < (db.history a.channelId).length := by omega
      have hedge : (rows.take a.safeLimit).getLast? = some (db.history a.channelId)[k+(a.safeLimit-1)] := by
        rw [List.getLast?_take,if_neg (by omega),hdrop,List.getElem?_drop,List.getElem?_eq_getElem hlast]
        rfl
      rw [if_pos (by simpa using hlt),if_pos hlt,List.getLast?_map,hedge]
      simp only [Option.map_some]
      refine congrArg some ?_
      have hnum := h.getElem_sequenceNumber hlast
      simp only [toMessagePayload,hnum]
      rw [← hrows]
      omega
    · rw [if_neg (by simpa using hlt),if_neg hlt]
  · rw [Keysets.isSome_newer_next]
    exact hmore

/-- How the library reads on from a cursor, in each of the two directions. -/
def MessagePageMode.page (mode : MessagePageMode) (limit : ℕ) :
    Option ℤ → List (Uuid × ℕ) → Keysets.Page (Uuid × ℕ) :=
  if mode = .since then Keysets.newer limit else Keysets.older limit

theorem MessagePageMode.page_window (mode : MessagePageMode) (limit : ℕ) (cursor : Option ℤ)
    (log : List (Uuid × ℕ)) : (mode.page limit cursor log).items.Sublist log ∧
      (mode.page limit cursor log).items.length ≤ limit := by
  by_cases hs : mode = .since
  · rw [MessagePageMode.page,if_pos hs]
    exact Keysets.newer_window limit cursor log
  · rw [MessagePageMode.page,if_neg hs]
    exact Keysets.older_window limit cursor log

def BarePage.keys (page : BarePage) : Keysets.Page (Uuid × ℕ) := ⟨page.entries,page.nextCursor⟩

theorem BarePage.flatMap_entries (pages : List BarePage) :
    pages.flatMap (·.entries) = (pages.map BarePage.keys).flatMap (·.items) := by
  rw [List.flatMap_map]
  rfl

/-- The page of the table is the library's page of the entries. -/
theorem Numbered.keys (h : Numbered a.channelId db) (hm : a.mode ≠ .latest) :
    (a.databasePage db).keys = a.mode.page a.safeLimit a.cursor (db.entries a.channelId) ∧
    (a.databasePage db).hasMore = (a.databasePage db).nextCursor.isSome := by
  have hentries : ∀ l : List MessageRow, ((l.map fun r => toMessagePayload r (db.username? r.senderId)).map
      fun m => (m.id,m.sequenceNumber)) = l.map fun r => (r.id,r.sequenceNumber) := fun l => by
    rw [List.map_map]
    rfl
  by_cases hs : a.mode = .since
  · obtain ⟨hmsgs,hnext,hmore⟩ := h.databasePage_newer hs
    refine ⟨?_,by rw [hmore,hnext]⟩
    rw [MessagePageMode.page,if_pos hs,Db.entries,Keysets.newer_map,BarePage.keys,BarePage.entries,hmsgs,
      hnext,hentries]
    rfl
  · have hb : a.mode = .before := by
      cases hmode : a.mode with
      | latest => exact absurd hmode hm
      | before => rfl
      | since => exact absurd hmode hs
    obtain ⟨hmsgs,hnext,hmore⟩ := h.databasePage_older hs (a.admits_before hb h)
    refine ⟨?_,by rw [hmore,hnext]⟩
    rw [MessagePageMode.page,if_neg hs,Db.entries,Keysets.older_map,BarePage.keys,BarePage.entries,hmsgs,
      hnext,hentries]
    rfl

/-! ### One page after another -/

theorem PageArgs.pages_keys (hm : a.mode ≠ .latest) (h : ∀ db ∈ dbs, Numbered a.channelId db) :
    (a.pages dbs).map BarePage.keys = Keysets.walk (a.mode.page a.safeLimit) a.cursor
      (dbs.map (·.entries a.channelId)) := by
  induction dbs generalizing a with
  | nil => rfl
  | cons db dbs ih =>
    obtain ⟨hkeys,hmore⟩ := (h db (List.mem_cons_self ..)).keys hm
    have hnext : (a.mode.page a.safeLimit a.cursor (db.entries a.channelId)).next =
        (a.databasePage db).nextCursor := by rw [← hkeys]; rfl
    rw [PageArgs.pages,List.map_cons,List.map_cons,hkeys]
    cases hc : (a.databasePage db).nextCursor with
    | none =>
      rw [Keysets.walk_last (hnext.trans hc),if_neg (by simp [hmore,hc])]
      rfl
    | some n =>
      rw [Keysets.walk_next (hnext.trans hc),if_pos (by simp [hmore,hc])]
      have hrest := ih (a := a.next (a.databasePage db)) hm
        fun d hd => h d (List.mem_cons_of_mem _ hd)
      rw [hrest]
      simp only [PageArgs.next,hc]
      rfl

theorem Numbered.continues (h : Numbered c db) (h' : Numbered c db')
    (hk : ∀ m ∈ db.messagesOf c, m ∈ db'.messagesOf c ∨ m.wipe ∈ db'.messagesOf c) :
    db.entries c <+: db'.entries c := by
  refine List.prefix_iff_getElem?.mpr fun i hi => ?_
  rw [Db.entries,List.length_map] at hi
  have hkept : ∃ m ∈ db'.history c, (m.id,m.sequenceNumber) =
      ((db.history c)[i].id,(db.history c)[i].sequenceNumber) := by
    rcases hk _ ((db.perm_history c).mem_iff.mp (List.getElem_mem hi)) with hm | hm
    · exact ⟨_,(db'.perm_history c).mem_iff.mpr hm,rfl⟩
    · exact ⟨_,(db'.perm_history c).mem_iff.mpr hm,rfl⟩
  obtain ⟨m,hm,hsame⟩ := hkept
  obtain ⟨j,hj,rfl⟩ := List.getElem_of_mem hm
  have hij : i = j := by
    have hnum := congrArg Prod.snd hsame
    simp only [h.getElem_sequenceNumber hi,h'.getElem_sequenceNumber hj] at hnum
    omega
  subst hij
  simp only [Db.entries,List.getElem?_map,List.getElem_map,List.getElem?_eq_getElem hj,Option.map_some]
  rw [hsame]

theorem Histories.growing (h : Histories c dbs) : Keysets.Growing (dbs.map (·.entries c)) := by
  induction dbs with
  | nil => exact .nil
  | cons db dbs ih =>
    have hrest : Histories c dbs :=
      ⟨fun d hd => h.numbered d (List.mem_cons_of_mem _ hd),h.kept.tail⟩
    cases dbs with
    | nil => exact .singleton _
    | cons db' dbs =>
      have hnext := List.isChain_cons_cons.mp h.kept
      refine List.isChain_cons_cons.mpr ⟨?_,ih hrest⟩
      exact Numbered.continues (h.numbered db (by simp)) (h.numbered db' (by simp)) hnext.1

theorem Grows.keeps_messages (h : Grows db db') (c : Uuid) :
    ∀ m ∈ db.messagesOf c, m ∈ db'.messagesOf c ∨ m.wipe ∈ db'.messagesOf c := by
  intro m hm
  obtain ⟨hmem,hc⟩ := List.mem_filter.mp hm
  rcases h.messages m hmem with h' | h'
  · exact .inl (List.mem_filter.mpr ⟨h',hc⟩)
  · exact .inr (List.mem_filter.mpr ⟨h',hc⟩)

/-- The tables a client meets while the server runs on between its calls. -/
theorem Reach.histories {x : Externals} {ok : Server → Action → Prop} {w : World} {d : Server}
    {ds : List Server} (hok : ∀ c l, ok c l → Arrives c l) (hw : Fresh w) (h : Reach x ok w d)
    (hds : (d::ds).IsChain (Run (server x) ok)) (c : Uuid) :
    Histories c ((d::ds).map (·.world.pg.db)) := by
  induction ds generalizing d with
  | nil =>
    refine ⟨fun db hdb => ?_,.singleton _⟩
    obtain rfl := List.mem_singleton.mp hdb
    exact (h.contiguous hok hw).numbered c
  | cons e ds ih =>
    obtain ⟨hrun,hrest⟩ := List.isChain_cons_cons.mp hds
    have hlater := ih (h.trans hrun) hrest
    refine ⟨fun db hdb => ?_,List.isChain_cons_cons.mpr ⟨?_,hlater.kept⟩⟩
    · rcases List.mem_cons.mp hdb with rfl | hdb
      · exact (h.contiguous hok hw).numbered c
      · exact hlater.numbered db hdb
    · exact (h.grows hok hw.toStart hrun).keeps_messages c

theorem safeLimit_le (limit : JsNumber) : safeLimit limit ≤ 100 := by
  cases limit with
  | nan => decide
  | posInf => decide
  | negInf => decide
  | finite q =>
    simp only [safeLimit]
    omega

/-- The messages of a page stand in the order of their numbers, as many as were asked for at
most. -/
theorem Numbered.page_ascending (h : Numbered a.channelId db) (hm : a.mode ≠ .latest) :
    ((a.databasePage db).messages.map (·.sequenceNumber)).Pairwise (· < ·) ∧
    (a.databasePage db).messages.length ≤ a.safeLimit := by
  have hkeys := congrArg Keysets.Page.items (h.keys hm).1
  have hnum : (a.databasePage db).messages.map (·.sequenceNumber) =
      (a.databasePage db).entries.map (·.2) := by simp [BarePage.entries,Function.comp_def]
  have hlen : (a.databasePage db).messages.length = (a.databasePage db).entries.length := by
    simp [BarePage.entries]
  obtain ⟨hwindow,hshort⟩ := a.mode.page_window a.safeLimit a.cursor (db.entries a.channelId)
  rw [hnum,hlen]
  rw [← hkeys] at hwindow hshort
  refine ⟨?_,hshort⟩
  have hall : ((db.entries a.channelId).map (·.2)).Pairwise (· < ·) := by
    rw [h.entries]
    exact List.pairwise_lt_range'
  exact hall.sublist (hwindow.map _)

/-- Every page is one of the table, from some cursor. -/
theorem PageArgs.mem_pages {page : BarePage} (h : page ∈ a.pages dbs) :
    ∃ cursor, ∃ db ∈ dbs, page = PageArgs.databasePage { a with cursor := cursor } db := by
  induction dbs generalizing a with
  | nil => simp [PageArgs.pages] at h
  | cons db dbs ih =>
    rw [PageArgs.pages] at h
    rcases List.mem_cons.mp h with rfl | h
    · exact ⟨a.cursor,db,List.mem_cons_self ..,rfl⟩
    · split at h
      · obtain ⟨cursor,d,hd,hpage⟩ := ih h
        exact ⟨cursor,d,List.mem_cons_of_mem _ hd,hpage⟩
      · simp at h

theorem PageArgs.exhausted_iff (hm : a.mode ≠ .latest) (h : ∀ db ∈ dbs, Numbered a.channelId db) :
    Exhausted (a.pages dbs) ↔ Keysets.Ended ((a.pages dbs).map BarePage.keys) := by
  have hlink : ∀ page ∈ a.pages dbs, page.hasMore = page.nextCursor.isSome := fun page hp => by
    obtain ⟨cursor,db,hdb,rfl⟩ := PageArgs.mem_pages hp
    exact (Numbered.keys (a := { a with cursor := cursor }) (h db hdb) hm).2
  simp only [Exhausted,Keysets.Ended,List.getLast?_map]
  constructor
  · rintro ⟨p,hp,hmore⟩
    rw [hlink p (List.mem_of_getLast? hp)] at hmore
    exact ⟨p.keys,by rw [hp]; rfl,by simpa [BarePage.keys] using hmore⟩
  · rintro ⟨k,hk,hnext⟩
    obtain ⟨p,hp,rfl⟩ := Option.map_eq_some_iff.mp hk
    refine ⟨p,hp,?_⟩
    rw [hlink p (List.mem_of_getLast? hp)]
    simpa [BarePage.keys] using hnext

theorem Db.length_entries (db : Db) (c : Uuid) : (db.entries c).length = (db.messagesOf c).length := by
  rw [Db.entries,List.length_map,(db.perm_history c).length_eq]

/-- The calls of a client are a walk over the entries of the channel. -/
theorem Histories.walk (h : Histories a.channelId (db::dbs)) (hm : a.mode ≠ .latest) :
    (a.pages (db::dbs)).map BarePage.keys = Keysets.walk (a.mode.page a.safeLimit) a.cursor
        (db.entries a.channelId::dbs.map (·.entries a.channelId)) ∧
    (Exhausted (a.pages (db::dbs)) ↔ Keysets.Ended (Keysets.walk (a.mode.page a.safeLimit) a.cursor
      (db.entries a.channelId::dbs.map (·.entries a.channelId)))) := by
  have hkeys := PageArgs.pages_keys hm h.numbered
  refine ⟨hkeys,?_⟩
  rw [PageArgs.exhausted_iff hm h.numbered,hkeys]
  rfl

/-- A client that goes back has read every message below its cursor after at most one call
more than there are messages. -/
theorem Histories.pages_before (h : Histories a.channelId (db::dbs)) (hm : a.mode = .before)
    (hmany : (db.messagesOf a.channelId).length ≤ dbs.length) :
    Exhausted (a.pages (db::dbs)) ∧ (a.pages (db::dbs)).reverse.flatMap (·.entries) =
      (db.entries a.channelId).filter fun e => a.cursor.all fun k => (e.2 : ℤ) < k := by
  obtain ⟨hkeys,hexhausted⟩ := h.walk (by simp [hm])
  have hpage : a.mode.page a.safeLimit = Keysets.older a.safeLimit := by simp [MessagePageMode.page,hm]
  rw [hpage] at hkeys hexhausted
  have hfew : (Keysets.below a.cursor (db.entries a.channelId)).length ≤
      (dbs.map (·.entries a.channelId)).length := by
    have hle := Keysets.length_below_le a.cursor (db.entries a.channelId)
    rw [db.length_entries] at hle
    rw [List.length_map]
    omega
  obtain ⟨hend,hall⟩ := Keysets.walk_older (safeLimit_pos a.limit) h.growing hfew
  refine ⟨hexhausted.mpr hend,?_⟩
  rw [← Keysets.below_eq_filter Prod.snd a.cursor (h.numbered db (List.mem_cons_self ..)).entries,← hall]
  rw [BarePage.flatMap_entries,List.map_reverse,hkeys]
  rfl

/-- A client that goes on to the end has read every message above its cursor. -/
theorem Histories.pages_since (h : Histories a.channelId (db::dbs)) (hm : a.mode = .since)
    (hend : Exhausted (a.pages (db::dbs))) :
    ∃ last, (db::dbs)[(a.pages (db::dbs)).length-1]? = some last ∧
      (a.pages (db::dbs)).flatMap (·.entries) =
        (last.entries a.channelId).filter fun e => a.cursor.all fun k => k < (e.2 : ℤ) := by
  obtain ⟨hkeys,hexhausted⟩ := h.walk (by simp [hm])
  have hpage : a.mode.page a.safeLimit = Keysets.newer a.safeLimit := by simp [MessagePageMode.page,hm]
  rw [hpage] at hkeys hexhausted
  obtain ⟨log,hlog,hall⟩ := Keysets.walk_newer h.growing (hexhausted.mp hend)
  have hlog' : ((db::dbs).map (·.entries a.channelId))[(a.pages (db::dbs)).length-1]? = some log := by
    rw [← hlog,← List.length_map (f := BarePage.keys),hkeys]
    rfl
  rw [List.getElem?_map] at hlog'
  obtain ⟨last,hlast,rfl⟩ := Option.map_eq_some_iff.mp hlog'
  refine ⟨last,hlast,?_⟩
  rw [← Keysets.above_eq_filter Prod.snd a.cursor (h.numbered last (List.mem_of_getElem? hlast)).entries,
    ← hall]
  rw [BarePage.flatMap_entries,hkeys]

theorem Histories.pages_since_exhausted (h : Histories a.channelId (db::dbs)) (hm : a.mode = .since)
    (hmany : ∀ d ∈ db::dbs, (d.messagesOf a.channelId).length ≤ dbs.length) :
    Exhausted (a.pages (db::dbs)) := by
  have hpage : a.mode.page a.safeLimit = Keysets.newer a.safeLimit := by simp [MessagePageMode.page,hm]
  rw [(h.walk (by simp [hm])).2,hpage]
  refine Keysets.walk_newer_ended (safeLimit_pos a.limit) h.growing fun log hlog => ?_
  have hlog' : log ∈ (db::dbs).map (·.entries a.channelId) := hlog
  obtain ⟨d,hd,rfl⟩ := List.mem_map.mp hlog'
  have hle := Keysets.length_above_le a.cursor (d.entries a.channelId)
  have hd' := hmany d hd
  rw [d.length_entries] at hle
  rw [List.length_map]
  omega

/-- Reading back from a cursor visits every older message once, and reading on from a cursor
every newer one. -/
theorem paging_visits_once (a : PageArgs) (db : Db) (dbs : List Db)
    (h : Histories a.channelId (db::dbs)) :
    (1 ≤ a.safeLimit ∧ a.safeLimit ≤ 100) ∧
    (a.mode ≠ .latest → ∀ page ∈ a.pages (db::dbs),
      (page.messages.map (·.sequenceNumber)).Pairwise (· < ·) ∧ page.messages.length ≤ a.safeLimit) ∧
    (a.mode = .before → (db.messagesOf a.channelId).length ≤ dbs.length →
      Exhausted (a.pages (db::dbs)) ∧ (a.pages (db::dbs)).reverse.flatMap (·.entries) =
        (db.entries a.channelId).filter fun e => a.cursor.all fun k => (e.2 : ℤ) < k) ∧
    (a.mode = .since → Exhausted (a.pages (db::dbs)) →
      ∃ last, (db::dbs)[(a.pages (db::dbs)).length-1]? = some last ∧
        (a.pages (db::dbs)).flatMap (·.entries) =
          (last.entries a.channelId).filter fun e => a.cursor.all fun k => k < (e.2 : ℤ)) ∧
    (a.mode = .since → (∀ d ∈ db::dbs, (d.messagesOf a.channelId).length ≤ dbs.length) →
      Exhausted (a.pages (db::dbs))) := by
  refine ⟨⟨safeLimit_pos a.limit,safeLimit_le a.limit⟩,fun hm page hp => ?_,h.pages_before,
    h.pages_since,h.pages_since_exhausted⟩
  obtain ⟨cursor,d,hd,rfl⟩ := PageArgs.mem_pages hp
  exact Numbered.page_ascending (a := { a with cursor := cursor }) (h.numbered d hd) hm

def numberedMessage (n : ℕ) : MessageRow where
  id := 20+n
  messageType := "text"
  encryptedContent := "c2VhbGVk"
  contentIv := "aXY="
  contentTag := "dGFn"
  signature := "c2ln"
  sequenceNumber := n
  senderKeyEpoch := 0
  metadata := none
  isDeleted := false
  createdAt := n
  senderId := 1
  channelId := 10

/-- A channel with the messages up to a number. -/
def sentUpTo (n : ℕ) : Db where
  users := [⟨1,"ada","",true⟩]
  channels := []
  memberships := []
  messages := (List.range' 1 n).map numberedMessage
  reactions := []

/-- Two at a time from the newest. -/
def twoBack : PageArgs := ⟨10,1,.finite 2,none,.before⟩

/-- The fourth and fifth message are sent between the calls. -/
theorem paging_visits_once_three :
    Exhausted (twoBack.pages [sentUpTo 3,sentUpTo 4,sentUpTo 5,sentUpTo 5]) ∧
    (twoBack.pages [sentUpTo 3,sentUpTo 4,sentUpTo 5,sentUpTo 5]).reverse.flatMap (·.entries) =
      [(21,1),(22,2),(23,3)] :=
  (paging_visits_once twoBack (sentUpTo 3) [sentUpTo 4,sentUpTo 5,sentUpTo 5]
    ⟨by simp only [Numbered]; decide,by decide⟩).2.2.1 rfl (by decide)

end ZevraServer
