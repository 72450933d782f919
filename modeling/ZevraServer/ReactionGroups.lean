import ZevraServer.PlainObjects
import ZevraServer.Reactions

/-!
# `getReactions`

The rows of a message are grouped in an object literal keyed by the emoji. A key that was not
assigned may still be found on `Object.prototype`; what is found there has no list of users,
and the loop throws.
-/

namespace ZevraServer.Reactions

open PlainObjects

/-- The columns `getReactions` selects. -/
structure ReactionUse where
  emoji : String
  userId : Uuid
  deriving DecidableEq, Repr

/-- A value of `grouped`. -/
structure ReactionGroup where
  emoji : String
  userIds : List Uuid
  count : ℕ
  deriving DecidableEq, Repr

/-- The names of the members of `Object.prototype`. -/
def OBJECT_PROTOTYPE : List String :=
  ["constructor","__defineGetter__","__defineSetter__","hasOwnProperty","__lookupGetter__",
    "__lookupSetter__","isPrototypeOf","propertyIsEnumerable","toString","valueOf","__proto__",
    "toLocaleString"]

/-- `grouped[row.emoji] ??= { emoji, userIds: [], count: 0 }`, or nothing with `userIds`. -/
def groupEntry (grouped : Object ReactionGroup) (emoji : String) : Option ReactionGroup :=
  match get OBJECT_PROTOTYPE grouped emoji with
  | .own entry => some entry
  | .inherited _ => none
  | .undefined => some ⟨emoji,[],0⟩

def groupRow (grouped : Object ReactionGroup) (row : ReactionUse) : Except HttpError (Object ReactionGroup) :=
  match groupEntry grouped row.emoji with
  | none => .error .typeError
  | some entry => .ok (set grouped row.emoji
      { entry with userIds := entry.userIds++[row.userId], count := entry.count+1 })

def groupReactions (rows : List ReactionUse) : Except HttpError (List ReactionGroup) :=
  (rows.foldlM groupRow []).map values

/-- `SELECT emoji, userId FROM reactions WHERE messageId`. -/
def Request.uses (r : Request) (db : Db) : List ReactionUse :=
  (db.reactions.filter fun row => row.messageId = r.message).map fun row => ⟨row.emoji,row.userId⟩

inductive GetReactions
  | load (r : Request)
  | rows (r : Request)
  | done (groups : List ReactionGroup)
  | failed (err : HttpError)
  deriving DecidableEq, Repr

/-- The request has no emoji; `loadTarget` does not read it. -/
def GetReactions.step (ch : Choice) (db : Db) : GetReactions → Option GetReactions
  | .load r =>
    if ch.fail then some (.failed (.database aborted))
    else match r.loadTarget db with
      | .error err => some (.failed err)
      | .ok _ => some (.rows r)
  | .rows r =>
    if ch.fail then some (.failed (.database aborted))
    else match groupReactions (r.uses db) with
      | .error err => some (.failed err)
      | .ok groups => some (.done groups)
  | .done _ => none
  | .failed _ => none

/-! ### The loop -/

/-- The group of an emoji. -/
def groupOf (rows : List ReactionUse) (emoji : String) : ReactionGroup :=
  let uses := rows.filter fun r => r.emoji = emoji
  ⟨emoji,uses.map (·.userId),uses.length⟩

/-- What `grouped` holds after the given rows. -/
structure Grouped (rows : List ReactionUse) (grouped : Object ReactionGroup) : Prop where
  nodup : (grouped.map (·.1)).Nodup
  keys : ∀ e, e ∈ grouped.map (·.1) ↔ e ∈ rows.map (·.emoji)
  groups : ∀ e ∈ grouped, e.2 = groupOf rows e.1

theorem Grouped.nil : Grouped [] [] := ⟨by simp,by simp,by simp⟩

theorem groupOf_append_of_ne {rows : List ReactionUse} {row : ReactionUse} {e : String} (h : row.emoji ≠ e) :
    groupOf (rows++[row]) e = groupOf rows e := by
  simp [groupOf,h]

theorem groupOf_append_self (rows : List ReactionUse) (row : ReactionUse) :
    groupOf (rows++[row]) row.emoji = { groupOf rows row.emoji with
      userIds := (groupOf rows row.emoji).userIds++[row.userId],
      count := (groupOf rows row.emoji).count+1 } := by
  simp [groupOf]

/-- The entry a row is added to is the group of the rows before it. -/
theorem Grouped.entry {rows : List ReactionUse} {grouped : Object ReactionGroup} (h : Grouped rows grouped)
    {e : String} (he : e ∉ OBJECT_PROTOTYPE) : groupEntry grouped e = some (groupOf rows e) := by
  unfold groupEntry
  split
  · rename_i entry hget
    have hgroup : entry = groupOf rows e := h.groups _ (get_own hget)
    rw [hgroup]
  · rename_i n hget
    exact absurd (get_inherited_iff.mp ⟨n,hget⟩).1 he
  · rename_i hget
    have hkey : e ∉ grouped.map (·.1) := by
      intro hmem
      obtain ⟨a,ha,rfl⟩ := List.mem_map.mp hmem
      have hno : ∀ v, get OBJECT_PROTOTYPE grouped a.1 ≠ .own v := fun v => by simp [hget]
      exact get_not_own hno a ha rfl
    rw [h.keys] at hkey
    have hnone : rows.filter (fun r => decide (r.emoji = e)) = [] := by
      rw [List.filter_eq_nil_iff]
      intro r hr
      simp only [decide_eq_true_eq]
      rintro rfl
      exact hkey (List.mem_map_of_mem hr)
    simp [groupOf,hnone]

theorem Grouped.next {rows : List ReactionUse} {grouped : Object ReactionGroup} (h : Grouped rows grouped)
    {row : ReactionUse} (hrow : row.emoji ∉ OBJECT_PROTOTYPE) :
    ∃ grouped', groupRow grouped row = .ok grouped' ∧ Grouped (rows++[row]) grouped' := by
  have hstep : groupRow grouped row = .ok (set grouped row.emoji { groupOf rows row.emoji with
      userIds := (groupOf rows row.emoji).userIds++[row.userId],
      count := (groupOf rows row.emoji).count+1 }) := by
    simp only [groupRow,h.entry hrow]
  refine ⟨_,hstep,nodup_keys_set h.nodup _ _,fun e => ?_,fun e he => ?_⟩
  · rw [mem_keys_set,h.keys]
    simp
  · rcases mem_set.mp he with rfl | ⟨hne,he⟩
    · rw [groupOf_append_self]
    · rw [groupOf_append_of_ne (Ne.symm hne)]
      exact h.groups e he

/-- A row with an inherited name as emoji is not added. -/
theorem Grouped.throws {rows : List ReactionUse} {grouped : Object ReactionGroup} (h : Grouped rows grouped)
    (hrows : ∀ r ∈ rows, r.emoji ∉ OBJECT_PROTOTYPE) {row : ReactionUse}
    (hrow : row.emoji ∈ OBJECT_PROTOTYPE) : groupRow grouped row = .error .typeError := by
  have hno : ∀ e ∈ grouped, e.1 ≠ row.emoji := by
    intro e he hk
    have hmem := (h.keys e.1).mp (List.mem_map_of_mem he)
    obtain ⟨r,hr,hre⟩ := List.mem_map.mp hmem
    exact hrows r hr (by rwa [hre,hk])
  obtain ⟨n,hget⟩ := get_inherited_iff.mpr ⟨hrow,hno⟩
  simp only [groupRow,groupEntry,hget]

/-- The loop over all rows. -/
theorem fold_grouped {rows : List ReactionUse} (h : ∀ r ∈ rows, r.emoji ∉ OBJECT_PROTOTYPE) :
    ∃ grouped, rows.foldlM groupRow [] = .ok grouped ∧ Grouped rows grouped := by
  induction rows using List.reverseRecOn with
  | nil => exact ⟨[],rfl,.nil⟩
  | append_singleton rows row ih =>
    obtain ⟨grouped,hfold,hg⟩ := ih fun r hr => h r (by simp [hr])
    obtain ⟨grouped',hstep,hg'⟩ := hg.next (h row (by simp))
    refine ⟨grouped',?_,hg'⟩
    rw [List.foldlM_append,hfold]
    simp [bind,Except.bind,hstep,pure,Except.pure]

theorem fold_throws {rows : List ReactionUse} (h : ∃ r ∈ rows, r.emoji ∈ OBJECT_PROTOTYPE) :
    rows.foldlM groupRow [] = .error .typeError := by
  induction rows using List.reverseRecOn with
  | nil => simp at h
  | append_singleton rows row ih =>
    rw [List.foldlM_append]
    by_cases hrows : ∃ r ∈ rows, r.emoji ∈ OBJECT_PROTOTYPE
    · rw [ih hrows]
      rfl
    · have hclear : ∀ r ∈ rows, r.emoji ∉ OBJECT_PROTOTYPE := fun r hr he => hrows ⟨r,hr,he⟩
      obtain ⟨grouped,hfold,hg⟩ := fold_grouped hclear
      have hrow : row.emoji ∈ OBJECT_PROTOTYPE := by
        obtain ⟨r,hr,he⟩ := h
        rcases List.mem_append.mp hr with hr | hr
        · exact absurd he (hclear r hr)
        · obtain rfl := List.mem_singleton.mp hr
          exact he
      rw [hfold]
      simp [bind,Except.bind,hg.throws hclear hrow]

/-! ### The groups -/

/-- One group for each emoji, with its users in the order of the rows. -/
structure ExactGroups (rows : List ReactionUse) (groups : List ReactionGroup) : Prop where
  distinct : (groups.map (·.emoji)).Nodup
  occurs : ∀ e, e ∈ groups.map (·.emoji) ↔ ∃ r ∈ rows, r.emoji = e
  userIds : ∀ g ∈ groups, g.userIds = (rows.filter fun r => r.emoji = g.emoji).map (·.userId)
  count : ∀ g ∈ groups, g.count = g.userIds.length
  total : (groups.map (·.count)).sum = rows.length

theorem Grouped.emojis {rows : List ReactionUse} {grouped : Object ReactionGroup} (h : Grouped rows grouped) :
    (grouped.map (·.2)).map (·.emoji) = grouped.map (·.1) := by
  rw [List.map_map]
  refine List.map_congr_left fun e he => ?_
  simp only [Function.comp_apply,h.groups e he]
  rfl

/-- The counts sum to the number of rows: each row has one emoji. -/
theorem Grouped.total {rows : List ReactionUse} {grouped : Object ReactionGroup} (h : Grouped rows grouped) :
    ((grouped.map (·.2)).map (·.count)).sum = rows.length := by
  have hcounts : (grouped.map (·.2)).map (·.count) =
      (grouped.map (·.1)).map fun e => (rows.map (·.emoji)).count e := by
    rw [List.map_map,List.map_map]
    refine List.map_congr_left fun e he => ?_
    simp only [Function.comp_apply,h.groups e he,groupOf]
    rw [List.count,List.countP_map,List.countP_eq_length_filter]
    congr 1
  have hperm : (grouped.map (·.1)).Perm (rows.map (·.emoji)).dedup := by
    rw [List.perm_ext_iff_of_nodup h.nodup (List.nodup_dedup _)]
    intro e
    rw [List.mem_dedup]
    exact h.keys e
  rw [hcounts,(hperm.map _).sum_eq,List.sum_map_count_dedup_eq_length,List.length_map]

theorem Grouped.exact {rows : List ReactionUse} {grouped : Object ReactionGroup} (h : Grouped rows grouped) :
    ExactGroups rows (values grouped) := by
  have hperm := values_perm grouped
  have hemojis : ((values grouped).map (·.emoji)).Perm (grouped.map (·.1)) := by
    rw [← h.emojis]
    exact hperm.map _
  have hmem : ∀ g ∈ values grouped, g = groupOf rows g.emoji := by
    intro g hg
    obtain ⟨e,he,rfl⟩ := List.mem_map.mp (hperm.mem_iff.mp hg)
    have hgroup := h.groups e he
    rw [hgroup]
    rfl
  refine ⟨hemojis.nodup_iff.mpr h.nodup,fun e => ?_,fun g hg => ?_,fun g hg => ?_,?_⟩
  · rw [hemojis.mem_iff,h.keys,List.mem_map]
  · rw [hmem g hg]
    rfl
  · rw [hmem g hg]
    simp [groupOf]
  · rw [(hperm.map _).sum_eq]
    exact h.total

theorem exact_iff (rows : List ReactionUse) :
    (∃ groups, groupReactions rows = .ok groups ∧ ExactGroups rows groups) ↔
      ∀ r ∈ rows, r.emoji ∉ OBJECT_PROTOTYPE := by
  constructor
  · rintro ⟨groups,hgroups,_⟩ r hr he
    simp [groupReactions,fold_throws ⟨r,hr,he⟩,Except.map] at hgroups
  · intro h
    obtain ⟨grouped,hfold,hg⟩ := fold_grouped h
    exact ⟨values grouped,by simp [groupReactions,hfold,Except.map],hg.exact⟩

/-- What a call answers that reads its rows. -/
theorem GetReactions.answers {ch : Choice} (hf : ch.fail = false) (db : Db) (r : Request) :
    (∃ groups, GetReactions.step ch db (.rows r) = some (.done groups) ∧ ExactGroups (r.uses db) groups) ↔
      ∀ use ∈ r.uses db, use.emoji ∉ OBJECT_PROTOTYPE := by
  rw [← exact_iff]
  simp only [step,hf]
  cases groupReactions (r.uses db) with
  | error err => simp
  | ok groups => simp

/-- The grouping is exact where no emoji is the name of a member of `Object.prototype`, and
throws elsewhere. -/
theorem grouping_exact (rows : List ReactionUse) :
    (∃ groups, groupReactions rows = .ok groups ∧ ExactGroups rows groups) ↔
      ∀ r ∈ rows, r.emoji ∉ OBJECT_PROTOTYPE :=
  exact_iff rows

/-- A single reaction whose emoji is the word `constructor`. -/
theorem grouping_throws : ∃ rows : List ReactionUse,
    (∀ r ∈ rows, 1 ≤ utf16Length r.emoji ∧ utf16Length r.emoji ≤ 16) ∧ rows.Nodup ∧
    groupReactions rows = .error .typeError ∧
    ¬ ∃ groups, groupReactions rows = .ok groups ∧ ExactGroups rows groups := by
  have hthrows : groupReactions [⟨"constructor",1⟩] = .error .typeError := by rfl
  refine ⟨[⟨"constructor",1⟩],by decide,by decide,hthrows,?_⟩
  rintro ⟨groups,hgroups,_⟩
  rw [hthrows] at hgroups
  simp at hgroups

example : groupReactions [⟨"b",1⟩,⟨"7",2⟩,⟨"b",3⟩] = .ok [⟨"7",[2],1⟩,⟨"b",[1,3],2⟩] := by
  decide +kernel

end ZevraServer.Reactions
