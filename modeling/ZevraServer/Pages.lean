import ZevraServer.Sequence
import ZevraServer.Keysets

/-!
# Pages

With contiguous sequence numbers, the page `getMessages` reads from the table without a
cursor is the window of the newest messages. A page accepted from the cache list is
a window too, and it is the same one if it ends with the newest message.
-/

namespace ZevraServer

/-- The newest `n` elements of a list that grows at its end. -/
def newest {α : Type} (n : ℕ) (l : List α) : List α := l.drop (l.length-n)

/-! ### The page of the table -/

/-- The messages of a channel in the order of their numbers. -/
def Db.history (db : Db) (c : Uuid) : List MessageRow :=
  (db.messagesOf c).insertionSort fun m n => m.sequenceNumber ≤ n.sequenceNumber

/-- They are numbered `1, 2, ..., n`. -/
def Numbered (c : Uuid) (db : Db) : Prop :=
  (db.history c).map (·.sequenceNumber) = List.range' 1 (db.history c).length

theorem Db.perm_history (db : Db) (c : Uuid) : (db.history c).Perm (db.messagesOf c) :=
  List.perm_insertionSort _ _

namespace Numbered

variable {db : Db} {a : PageArgs} {c : Uuid}

theorem pairwise (h : Numbered c db) :
    (db.history c).Pairwise fun r s => r.sequenceNumber < s.sequenceNumber := by
  have hlt : (List.range' 1 (db.history c).length).Pairwise (· < ·) := List.pairwise_lt_range'
  rw [← h,List.pairwise_map] at hlt
  exact hlt

theorem unique (h : Numbered c db) {r s : MessageRow} (hr : r ∈ db.history c) (hs : s ∈ db.history c)
    (he : r.sequenceNumber = s.sequenceNumber) : r = s := by
  have hnd : ((db.history c).map (·.sequenceNumber)).Nodup := by
    rw [h]
    exact List.nodup_range'
  exact List.inj_on_of_nodup_map hnd hr hs he

theorem getElem_sequenceNumber (h : Numbered c db) {i : ℕ} (hi : i < (db.history c).length) :
    (db.history c)[i].sequenceNumber = i+1 := by
  have heq : ((db.history c).map (·.sequenceNumber))[i]? = some (i+1) := by
    rw [h,List.getElem?_range' hi]
    congr 1
    omega
  rw [List.getElem?_map,List.getElem?_eq_getElem hi] at heq
  exact Option.some.inj heq

theorem perm_sort (db : Db) (c : Uuid) (r : MessageRow → MessageRow → Prop) [DecidableRel r] (p : MessageRow → Bool) :
    (((db.messagesOf c).filter p).insertionSort r).Perm ((db.history c).filter p) :=
  (List.perm_insertionSort r _).trans ((db.perm_history c).filter p).symm

/-- Sorting what a condition keeps of the channel. -/
theorem sort_oldest_first (h : Numbered c db) (p : MessageRow → Bool) :
    ((db.messagesOf c).filter p).insertionSort (fun m n => m.sequenceNumber ≤ n.sequenceNumber) =
      (db.history c).filter p := by
  have htotal : Std.Total fun m n : MessageRow => m.sequenceNumber ≤ n.sequenceNumber :=
    ⟨fun m n => Nat.le_total _ _⟩
  have htrans : IsTrans MessageRow fun m n => m.sequenceNumber ≤ n.sequenceNumber :=
    ⟨fun _ _ _ hab hbc => Nat.le_trans hab hbc⟩
  have hperm := perm_sort db c (fun m n => m.sequenceNumber ≤ n.sequenceNumber) p
  refine List.Perm.eq_of_pairwise ?_ (List.pairwise_insertionSort _ _)
    ((h.pairwise.filter p).imp Nat.le_of_lt) hperm
  intro r s hr hs hrs hsr
  exact h.unique (List.mem_filter.mp (hperm.mem_iff.mp hr)).1 (List.mem_filter.mp hs).1
    (Nat.le_antisymm hrs hsr)

theorem sort_newest_first (h : Numbered c db) (p : MessageRow → Bool) :
    ((db.messagesOf c).filter p).insertionSort (fun m n => n.sequenceNumber ≤ m.sequenceNumber) =
      ((db.history c).filter p).reverse := by
  have htotal : Std.Total fun m n : MessageRow => n.sequenceNumber ≤ m.sequenceNumber :=
    ⟨fun m n => Nat.le_total _ _⟩
  have htrans : IsTrans MessageRow fun m n => n.sequenceNumber ≤ m.sequenceNumber :=
    ⟨fun _ _ _ hab hbc => Nat.le_trans hbc hab⟩
  have hperm := perm_sort db c (fun m n => n.sequenceNumber ≤ m.sequenceNumber) p
  refine List.Perm.eq_of_pairwise ?_ (List.pairwise_insertionSort _ _)
    (List.pairwise_reverse.mpr ((h.pairwise.filter p).imp Nat.le_of_lt))
    (hperm.trans (List.reverse_perm _).symm)
  intro r s hr hs hrs hsr
  exact h.unique (List.mem_filter.mp (hperm.mem_iff.mp hr)).1
    (List.mem_filter.mp (List.mem_reverse.mp hs)).1 (Nat.le_antisymm hsr hrs)

/-- A page that looks back is the window before its cursor. -/
theorem databasePage_older (h : Numbered a.channelId db) (hm : a.mode ≠ .since) {cursor : Option ℤ}
    (hall : (db.history a.channelId).filter a.admits = Keysets.below cursor (db.history a.channelId)) :
    (a.databasePage db).messages = (Keysets.older a.safeLimit cursor (db.history a.channelId)).items.map
        (fun r => toMessagePayload r (db.username? r.senderId)) ∧
    (a.databasePage db).nextCursor = (Keysets.older a.safeLimit cursor (db.history a.channelId)).next ∧
    (a.databasePage db).hasMore =
      (Keysets.older a.safeLimit cursor (db.history a.channelId)).next.isSome := by
  have hpos : 0 < a.safeLimit := safeLimit_pos a.limit
  have hpre := Keysets.below_begins cursor (db.history a.channelId)
  set rows := Keysets.below cursor (db.history a.channelId) with hrows
  have hsorted : a.rows db = rows.reverse.take (a.safeLimit+1) := by
    simp only [PageArgs.rows,if_neg hm]
    rw [h.sort_newest_first,hall]
  have hmore : decide (a.safeLimit < (a.rows db).length) = decide (a.safeLimit < rows.length) := by
    rw [hsorted,decide_eq_decide,List.length_take,List.length_reverse]
    omega
  have hpage : (if decide (a.safeLimit < (a.rows db).length) = true then (a.rows db).take a.safeLimit
      else a.rows db).reverse = rows.drop (rows.length-a.safeLimit) := by
    rw [hmore,hsorted]
    by_cases hlt : a.safeLimit < rows.length
    · rw [if_pos (by simpa using hlt),List.take_take,Nat.min_eq_left (by omega),List.take_reverse,
        List.reverse_reverse]
    · rw [if_neg (by simpa using hlt),List.take_reverse,List.reverse_reverse]
      congr 1
      omega
  refine ⟨?_,?_,?_⟩
  · simp only [PageArgs.databasePage,if_neg hm,Keysets.older]
    rw [hpage]
  · simp only [PageArgs.databasePage,if_neg hm,Keysets.older]
    rw [hpage,hmore]
    by_cases hlt : a.safeLimit < rows.length
    · have hne : rows.length-a.safeLimit < rows.length := by omega
      have hedge : rows[rows.length-a.safeLimit].sequenceNumber = rows.length-a.safeLimit+1 := by
        rw [hpre.getElem hne]
        exact h.getElem_sequenceNumber _
      rw [if_pos (by simpa using hlt),if_pos hlt,List.head?_map,List.head?_drop,
        List.getElem?_eq_getElem hne]
      exact congrArg some hedge
    · rw [if_neg (by simpa using hlt),if_neg hlt]
  · rw [Keysets.isSome_older_next]
    exact hmore

end Numbered

namespace Contiguous

variable {db : Db} {a : PageArgs}

theorem pairwise (h : Contiguous db) (c : Uuid) :
    (db.messagesOf c).Pairwise fun r s => r.sequenceNumber < s.sequenceNumber := by
  have hlt : (List.range' 1 (db.messagesOf c).length).Pairwise (· < ·) := List.pairwise_lt_range'
  rw [← h c,List.pairwise_map] at hlt
  exact hlt

/-- The table holds the messages of a channel in the order of their numbers. -/
theorem history (h : Contiguous db) (c : Uuid) : db.history c = db.messagesOf c :=
  List.Pairwise.insertionSort_eq ((h.pairwise c).imp Nat.le_of_lt)

theorem numbered (h : Contiguous db) (c : Uuid) : Numbered c db := by
  rw [Numbered,h.history c]
  exact h c

/-- The page without a cursor is the window of the newest messages. -/
theorem databasePage (h : Contiguous db) (hc : a.cursor = none) (hm : a.mode ≠ .since) :
    (a.databasePage db).messages = (newest a.safeLimit (db.messagesOf a.channelId)).map
        (fun r => toMessagePayload r (db.username? r.senderId)) ∧
    (a.databasePage db).hasMore = decide (a.safeLimit < (db.messagesOf a.channelId).length) ∧
    (a.databasePage db).nextCursor = if a.safeLimit < (db.messagesOf a.channelId).length
      then some ((db.messagesOf a.channelId).length-a.safeLimit+1) else none := by
  have hall : (db.history a.channelId).filter a.admits =
      Keysets.below none (db.history a.channelId) := by
    refine List.filter_eq_self.mpr fun r _ => ?_
    unfold PageArgs.admits
    rw [hc]
    cases a.mode <;> rfl
  obtain ⟨hmsgs,hnext,hmore⟩ := (h.numbered a.channelId).databasePage_older hm hall
  rw [h.history] at hmsgs hnext hmore
  exact ⟨hmsgs,hmore.trans (Keysets.isSome_older_next _ _ _),hnext⟩

/-- The numbers of the newest messages. -/
theorem newest_numbers (h : Contiguous db) {c : Uuid} {n : ℕ} (hn : n ≤ (db.messagesOf c).length) :
    (newest n (db.messagesOf c)).map (·.sequenceNumber) =
      List.range' ((db.messagesOf c).length-n+1) n := by
  rw [newest,List.map_drop,h c,List.drop_range']
  congr 1 <;> omega

end Contiguous

/-! ### The page of the cache list -/

theorem contiguous_numbers {m : MessagePayload} {l : List MessagePayload} (h : contiguous (m::l) = true) :
    (m::l).map (·.sequenceNumber) = List.range' m.sequenceNumber (l.length+1) := by
  induction l generalizing m with
  | nil => rfl
  | cons k l ih =>
    simp only [contiguous,Bool.and_eq_true,decide_eq_true_eq] at h
    rw [List.map_cons,ih h.2,h.1,List.length_cons,List.range'_succ (s := m.sequenceNumber)]

theorem length_payloads {items : List CacheItem} (h : .malformed ∉ items) :
    (items.filterMap CacheItem.payload?).length = items.length := by
  induction items with
  | nil => rfl
  | cons i items ih =>
    cases i with
    | payload m =>
      have hrest : .malformed ∉ items := fun hm => h (List.mem_cons_of_mem _ hm)
      simp [CacheItem.payload?,ih hrest]
    | malformed => simp at h

/-- An accepted page is a window of consecutive numbers over all the listed items. -/
theorem cachedAnswer_page {items : List CacheItem} {limit : ℕ} {page : BarePage}
    (h : cachedAnswer items limit = .page page) :
    limit ≤ items.length ∧ (∀ m, m ∈ page.messages ↔ .payload m ∈ items) ∧ ∃ o,
      page.messages.map (·.sequenceNumber) = List.range' o items.length ∧
      page.hasMore = decide (1 < o) ∧ page.nextCursor = if 1 < o then some o else none := by
  unfold cachedAnswer at h
  split_ifs at h with hlen hbad
  simp only at h
  split_ifs at h with hcont
  split at h
  · simp at h
  · rename_i oldest rest hitems
    have hperm := List.perm_insertionSort (fun a b : MessagePayload => a.sequenceNumber ≤ b.sequenceNumber)
      (items.filterMap CacheItem.payload?)
    rw [hitems] at h hperm hcont
    obtain rfl := CachedAnswer.page.inj h
    have hl : rest.length+1 = items.length := by
      rw [← length_payloads hbad,← hperm.length_eq,List.length_cons]
    refine ⟨by omega,fun m => ?_,oldest.sequenceNumber,?_,rfl,by simp⟩
    · simp only
      rw [hperm.mem_iff,List.mem_filterMap]
      constructor
      · rintro ⟨i,hi,hp⟩
        cases i with
        | payload k =>
          obtain rfl := Option.some.inj hp
          exact hi
        | malformed => simp [CacheItem.payload?] at hp
      · intro hm
        exact ⟨_,hm,rfl⟩
    · rw [← hl]
      exact contiguous_numbers hcont

end ZevraServer
