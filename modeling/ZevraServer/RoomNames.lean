import ZevraServer.LiveKit

/-!
# The names of LiveKit rooms

A room name is put together from ids and taken apart by a pattern other than the two that
let it in. The pattern is rigid, so it finds the ids that were put in.
-/

namespace ZevraServer

namespace LiveKit

open Patterns
open Raw.State (getGroupRoomName)

/-! ### Letters and ids -/

theorem toLower_cases (c : Char) : c.toLower = c ∨ ∃ n < 26, c = Char.ofNat (65+n) := by
  unfold Char.toLower
  split
  · rename_i hc
    obtain ⟨hlow,hhigh⟩ := hc
    have hlow' : 65 ≤ c.toNat := hlow
    have hhigh' : c.toNat ≤ 90 := hhigh
    refine .inr ⟨c.toNat-65,by omega,?_⟩
    rw [Nat.add_sub_cancel' hlow',Char.ofNat_toNat]
  · exact .inl rfl

theorem toLower_capitals : ∀ n < 26, (Char.ofNat (65+n)).toLower ≠ '-' ∧
    ((Char.ofNat (65+n)).toLower ∈ hexDigits → Char.ofNat (65+n) ∈ ['A','B','C','D','E','F']) := by
  decide

theorem toLower_eq_dash {c : Char} : c.toLower = '-' ↔ c = '-' := by
  constructor
  · intro hc
    rcases toLower_cases c with he | ⟨n,hn,rfl⟩
    · rwa [he] at hc
    · exact absurd hc (toLower_capitals n hn).1
  · rintro rfl
    rfl

theorem mem_dtoClass {c : Char} (hc : c.toLower ∈ hexDigits) :
    c ∈ '-'::hexDigits++['A','B','C','D','E','F'] := by
  rcases toLower_cases c with he | ⟨n,hn,rfl⟩
  · rw [he] at hc
    exact List.mem_append_left _ (List.mem_cons_of_mem _ hc)
  · exact List.mem_append_right _ ((toLower_capitals n hn).2 hc)

/-- The test of one character of `isUuid`. -/
def uuidAt (d : Char × ℕ) : Bool := if d.2 ∈ [8,13,18,23] then d.1 = '-' else d.1 ∈ hexDigits

theorem toList_toLower (s : String) : s.toLower.toList = lower s.toList := String.toList_map

theorem isUuid_iff {s : RawId} :
    isUuid s = true ↔ (lower s.toList).length = 36 ∧ (lower s.toList).zipIdx.all uuidAt = true := by
  simp only [isUuid,toList_toLower,Bool.and_eq_true,decide_eq_true_eq]
  rfl

/-- A stretch of digits. -/
theorem all_hex {l : List Char} {k : ℕ} (hk : ∀ i < l.length, k+i ∉ [8,13,18,23]) :
    (l.zipIdx k).all uuidAt = true ↔ ∀ c ∈ l, c ∈ hexDigits := by
  induction l generalizing k with
  | nil => simp
  | cons c l ih =>
    have hhere : k ∉ [8,13,18,23] := by simpa using hk 0 (by simp)
    have hrest : ∀ i < l.length, k+1+i ∉ [8,13,18,23] := by
      intro i hi
      have hnext := hk (i+1) (by simpa using hi)
      rwa [show k+1+i = k+(i+1) by omega]
    rw [List.zipIdx_cons,List.all_cons,Bool.and_eq_true,ih hrest]
    simp [uuidAt,hhere]

theorem split_at (l : List Char) (n : ℕ) (h : n < l.length) :
    ∃ a x r, l = a++x::r ∧ a.length = n ∧ r.length+n+1 = l.length := by
  refine ⟨l.take n,l[n],l.drop (n+1),?_,?_,?_⟩
  · rw [← List.drop_eq_getElem_cons h,List.take_append_drop]
  · rw [List.length_take]
    omega
  · rw [List.length_drop]
    omega

theorem uuid_stretches {a b c d e : List Char} {v x y z : Char} (ha : a.length = 8) (hb : b.length = 4)
    (hc : c.length = 4) (hd : d.length = 4) (he : e.length = 12) :
    (a++v::(b++x::(c++y::(d++z::e)))).zipIdx.all uuidAt = true ↔
      (∀ k ∈ a, k ∈ hexDigits) ∧ v = '-' ∧ (∀ k ∈ b, k ∈ hexDigits) ∧ x = '-' ∧
        (∀ k ∈ c, k ∈ hexDigits) ∧ y = '-' ∧ (∀ k ∈ d, k ∈ hexDigits) ∧ z = '-' ∧ ∀ k ∈ e, k ∈ hexDigits := by
  have hstretch : ∀ (l : List Char) (k m : ℕ), l.length = m → (∀ i < m, k+i ∉ [8,13,18,23]) →
      ((l.zipIdx k).all uuidAt = true ↔ ∀ c ∈ l, c ∈ hexDigits) := by
    rintro l k m rfl hk
    exact all_hex hk
  simp only [List.zipIdx_append,List.zipIdx_cons,List.all_append,List.all_cons,Bool.and_eq_true,ha,hb,hc,hd,
    Nat.zero_add,Nat.reduceAdd]
  rw [hstretch a 0 8 ha (by decide),hstretch b 9 4 hb (by decide),hstretch c 14 4 hc (by decide),
    hstretch d 19 4 hd (by decide),hstretch e 24 12 he (by decide)]
  simp [uuidAt]

theorem matches_hex {n : ℕ} {s : List Char} {g : List (List Char)} :
    Matches (.rep hex n 0) s g ↔ s.length = n ∧ (∀ c ∈ s, c ∈ hexDigits) ∧ g = [] := by
  simp only [hex,matches_rep_char,decide_eq_true_eq,Nat.add_zero]
  constructor
  · rintro ⟨hlow,hhigh,hall,rfl⟩
    exact ⟨by omega,hall,rfl⟩
  · rintro ⟨rfl,hall,rfl⟩
    exact ⟨le_refl _,le_refl _,hall,rfl⟩

theorem matches_dash {s : List Char} {g : List (List Char)} : Matches dash s g ↔ s = ['-'] ∧ g = [] := by
  simp [dash,matches_char]

theorem matches_uuid {t : List Char} {g : List (List Char)} :
    Matches UUID_RE t g ↔ t.length = 36 ∧ t.zipIdx.all uuidAt = true ∧ g = [] := by
  simp only [UUID_RE,matches_seq,matches_hex,matches_dash]
  constructor
  · rintro ⟨a,_,_,_,rfl,rfl,⟨ha,hha,rfl⟩,_,_,_,_,rfl,rfl,⟨rfl,rfl⟩,b,_,_,_,rfl,rfl,⟨hb,hhb,rfl⟩,
      _,_,_,_,rfl,rfl,⟨rfl,rfl⟩,c,_,_,_,rfl,rfl,⟨hc,hhc,rfl⟩,_,_,_,_,rfl,rfl,⟨rfl,rfl⟩,
      d,_,_,_,rfl,rfl,⟨hd,hhd,rfl⟩,_,e,_,_,rfl,rfl,⟨rfl,rfl⟩,he,hhe,rfl⟩
    refine ⟨by simp [ha,hb,hc,hd,he],?_,rfl⟩
    exact (uuid_stretches ha hb hc hd he).mpr ⟨hha,rfl,hhb,rfl,hhc,rfl,hhd,rfl,hhe⟩
  · rintro ⟨hlen,hall,rfl⟩
    obtain ⟨a,v,r,rfl,ha,hr⟩ := split_at t 8 (by omega)
    obtain ⟨b,x,r,rfl,hb,hr'⟩ := split_at r 4 (by omega)
    obtain ⟨c,y,r,rfl,hc,hr''⟩ := split_at r 4 (by omega)
    obtain ⟨d,z,e,rfl,hd,he⟩ := split_at r 4 (by omega)
    obtain ⟨hha,rfl,hhb,rfl,hhc,rfl,hhd,rfl,hhe⟩ :=
      (uuid_stretches ha hb hc hd (by omega)).mp hall
    exact ⟨a,_,[],[],rfl,rfl,⟨ha,hha,rfl⟩,['-'],_,[],[],rfl,rfl,⟨rfl,rfl⟩,b,_,[],[],rfl,rfl,⟨hb,hhb,rfl⟩,
      ['-'],_,[],[],rfl,rfl,⟨rfl,rfl⟩,c,_,[],[],rfl,rfl,⟨hc,hhc,rfl⟩,['-'],_,[],[],rfl,rfl,⟨rfl,rfl⟩,
      d,_,[],[],rfl,rfl,⟨hd,hhd,rfl⟩,['-'],e,[],[],rfl,rfl,⟨rfl,rfl⟩,by omega,hhe,rfl⟩

/-- `UUID_RE` without regard to case is `isUuid`. -/
theorem matches_isUuid {s : RawId} {g : List (List Char)} :
    Matches UUID_RE.ignoreCase s.toList g ↔ isUuid s = true ∧ g = [] := by
  rw [isUuid_iff]
  constructor
  · intro hm
    obtain ⟨hlen,hall,hg⟩ := matches_uuid.mp (matches_lower _ _ _ hm)
    exact ⟨⟨hlen,hall⟩,List.map_eq_nil_iff.mp hg⟩
  · rintro ⟨⟨hlen,hall⟩,rfl⟩
    obtain ⟨h,hm,hh⟩ := matches_of_lower _ _ _ (matches_uuid.mpr ⟨hlen,hall,rfl⟩)
    obtain rfl := List.map_eq_nil_iff.mp hh
    exact hm

theorem isUuid_length {s : RawId} (hs : isUuid s = true) : s.toList.length = 36 := by
  simpa [lower] using (isUuid_iff.mp hs).1

theorem isUuid_chars {s : RawId} (hs : isUuid s = true) : ∀ c ∈ s.toList, c.toLower ∈ '-'::hexDigits := by
  obtain ⟨_,hall⟩ := isUuid_iff.mp hs
  intro c hc
  have hlow : c.toLower ∈ lower s.toList := List.mem_map_of_mem hc
  obtain ⟨i,hi,he⟩ := List.mem_iff_getElem.mp hlow
  have hget : (lower s.toList)[i]? = some c.toLower := by rw [List.getElem?_eq_getElem hi,he]
  have hat := List.all_eq_true.mp hall (c.toLower,i) (List.mem_zipIdx_iff_getElem?.mpr hget)
  simp only [uuidAt] at hat
  split_ifs at hat
  · simp [of_decide_eq_true hat]
  · exact List.mem_cons_of_mem _ (of_decide_eq_true hat)

/-! ### Taking a name apart -/

theorem matches_kind {cs s : List Char} {g : List (List Char)} :
    Matches (Pattern.word cs).ignoreCase s g ↔ lower s = cs ∧ g = [] := by
  constructor
  · intro hm
    obtain ⟨hs,hg⟩ := matches_word.mp (matches_lower _ _ _ hm)
    exact ⟨hs,List.map_eq_nil_iff.mp hg⟩
  · rintro ⟨rfl,rfl⟩
    obtain ⟨h,hm,hh⟩ := matches_of_lower _ _ _ (matches_word.mpr ⟨rfl,rfl⟩)
    obtain rfl := List.map_eq_nil_iff.mp hh
    exact hm

theorem matches_dash_ignoreCase {s : List Char} {g : List (List Char)} :
    Matches dash.ignoreCase s g ↔ s = ['-'] ∧ g = [] := by
  simp [dash,Pattern.ignoreCase,matches_char,toLower_eq_dash]

/-- An id in a name, with its text. -/
theorem matches_id {s : List Char} {g : List (List Char)} :
    Matches (Pattern.group UUID_RE).ignoreCase s g ↔ isUuid (String.ofList s) = true ∧ g = [s] := by
  have hid := fun h => matches_isUuid (s := String.ofList s) (g := h)
  simp only [String.toList_ofList] at hid
  simp only [Pattern.ignoreCase,matches_group,hid]
  constructor
  · rintro ⟨_,rfl,hs,rfl⟩
    exact ⟨hs,rfl⟩
  · rintro ⟨hs,rfl⟩
    exact ⟨[],rfl,hs,rfl⟩

theorem matches_dm {s : List Char} {g : List (List Char)} : Matches DM_ROOM_RE s g ↔
    ∃ q a b, s = q++(a++ '-'::b) ∧ lower q = ['d','m','-'] ∧ isUuid (String.ofList a) = true ∧
      isUuid (String.ofList b) = true ∧ g = [a,b] := by
  show Matches (.seq (Pattern.word _).ignoreCase (.seq (Pattern.group UUID_RE).ignoreCase
    (.seq dash.ignoreCase (Pattern.group UUID_RE).ignoreCase))) s g ↔ _
  simp only [matches_seq,matches_kind,matches_dash_ignoreCase,matches_id]
  constructor
  · rintro ⟨q,_,_,_,rfl,rfl,⟨hq,rfl⟩,a,_,_,_,rfl,rfl,⟨ha,rfl⟩,_,b,_,_,rfl,rfl,⟨rfl,rfl⟩,hb,rfl⟩
    exact ⟨q,a,b,rfl,hq,ha,hb,rfl⟩
  · rintro ⟨q,a,b,rfl,hq,ha,hb,rfl⟩
    exact ⟨q,_,[],[a,b],rfl,rfl,⟨hq,rfl⟩,a,_,[a],[b],rfl,rfl,⟨ha,rfl⟩,['-'],b,[],[b],rfl,rfl,⟨rfl,rfl⟩,hb,rfl⟩

theorem matches_groupRoom {s : List Char} {g : List (List Char)} : Matches GROUP_ROOM_RE s g ↔
    ∃ q c, s = q++c ∧ lower q = ['g','r','o','u','p','-'] ∧ isUuid (String.ofList c) = true ∧ g = [c] := by
  show Matches (.seq (Pattern.word _).ignoreCase (Pattern.group UUID_RE).ignoreCase) s g ↔ _
  simp only [matches_seq,matches_kind,matches_id]
  constructor
  · rintro ⟨q,c,_,_,rfl,rfl,⟨hq,rfl⟩,hc,rfl⟩
    exact ⟨q,c,rfl,hq,hc,rfl⟩
  · rintro ⟨q,c,rfl,hq,hc,rfl⟩
    exact ⟨q,c,[],[c],rfl,rfl,⟨hq,rfl⟩,hc,rfl⟩

theorem rigid_dm : DM_ROOM_RE.Rigid := rfl

theorem rigid_group : GROUP_ROOM_RE.Rigid := rfl

/-- No name has both forms. -/
theorem not_dm_of_group {s : List Char} {g h : List (List Char)} (hg : Matches GROUP_ROOM_RE s g) :
    ¬ Matches DM_ROOM_RE s h := by
  intro hd
  obtain ⟨q,c,rfl,hq,_,_⟩ := matches_groupRoom.mp hg
  obtain ⟨r,a,b,he,hr,_,_,_⟩ := matches_dm.mp hd
  have hlow := congrArg lower he
  simp only [lower,List.map_append] at hlow hq hr
  rw [hq,hr] at hlow
  simp at hlow

variable {a b c d u : RawId} {w : World}

theorem toList_dm : ("dm-"++a++"-"++b : String).toList = ['d','m','-']++(a.toList++ '-'::b.toList) := by
  simp only [String.toList_append,List.append_assoc]
  rfl

theorem toList_group : (getGroupRoomName c).toList = ['g','r','o','u','p','-']++c.toList := by
  simp only [getGroupRoomName,String.toList_append]
  rfl

theorem exec_dm (ha : isUuid a = true) (hb : isUuid b = true) :
    DM_ROOM_RE.exec ("dm-"++a++"-"++b : String).toList = some [a.toList,b.toList] := by
  rw [exec_iff rigid_dm,matches_dm]
  refine ⟨_,_,_,toList_dm,by decide,?_,?_,rfl⟩
  · rwa [String.ofList_toList]
  · rwa [String.ofList_toList]

theorem exec_group (hc : isUuid c = true) : GROUP_ROOM_RE.exec (getGroupRoomName c).toList = some [c.toList] := by
  rw [exec_iff rigid_group,matches_groupRoom]
  refine ⟨_,_,toList_group,by decide,?_,rfl⟩
  rwa [String.ofList_toList]

/-! ### Who may enter -/

theorem authorize_of_dm {roomName : String} {x y : List Char} {fails : Bool}
    (hx : DM_ROOM_RE.exec roomName.toList = some [x,y]) : w.authorizeRoomAccess fails roomName u =
      ((String.ofList x).toLower = u.toLower || (String.ofList y).toLower = u.toLower : Bool) := by
  simp [World.authorizeRoomAccess,hx]

/-- The two ids of a direct room, in either order. -/
theorem getDmRoomName_cases (a b : RawId) :
    getDmRoomName a b = "dm-"++a++"-"++b ∨ getDmRoomName a b = "dm-"++b++"-"++a := by
  unfold getDmRoomName
  split
  · exact .inl rfl
  · exact .inr rfl

theorem authorize_dm {fails : Bool} (ha : isUuid a = true) (hb : isUuid b = true) :
    w.authorizeRoomAccess fails (getDmRoomName a b) u = true ↔ u.toLower = a.toLower ∨ u.toLower = b.toLower := by
  have hpair : ∀ {a b : RawId}, isUuid a = true → isUuid b = true →
      (w.authorizeRoomAccess fails ("dm-"++a++"-"++b) u = true ↔ u.toLower = a.toLower ∨ u.toLower = b.toLower) := by
    intro a b ha hb
    rw [authorize_of_dm (exec_dm ha hb),Bool.or_eq_true,decide_eq_true_eq,decide_eq_true_eq,String.ofList_toList,
      String.ofList_toList]
    exact or_congr eq_comm eq_comm
  rcases getDmRoomName_cases a b with hname | hname
  · rw [hname]
    exact hpair ha hb
  · rw [hname]
    exact (hpair hb ha).trans or_comm

theorem authorize_group {fails : Bool} (hc : isUuid c = true) :
    w.authorizeRoomAccess fails (getGroupRoomName c) u = (!fails && w.isActiveMember (.ofText u) (.ofText c)) := by
  have hnone : DM_ROOM_RE.exec (getGroupRoomName c).toList = none := by
    rw [exec_eq_none_iff]
    exact fun h => not_dm_of_group (matches_of_exec (exec_group hc))
  simp [World.authorizeRoomAccess,hnone,exec_group hc]

/-- Only names of the two forms let anyone in. -/
theorem authorize_form {roomName : String} {fails : Bool} (h : w.authorizeRoomAccess fails roomName u = true) :
    (∃ a b, isUuid a = true ∧ isUuid b = true ∧ roomName.toLower = ("dm-"++a++"-"++b).toLower) ∨
      ∃ c, isUuid c = true ∧ roomName.toLower = (getGroupRoomName c).toLower := by
  have hlower : ∀ {s t : String}, lower s.toList = lower t.toList → s.toLower = t.toLower := by
    intro s t he
    rw [← String.toList_inj,toList_toLower,toList_toLower]
    exact he
  unfold World.authorizeRoomAccess at h
  split at h
  · rename_i x y hx
    obtain ⟨q,a,b,hs,hq,ha,hb,_⟩ := matches_dm.mp (matches_of_exec hx)
    refine .inl ⟨_,_,ha,hb,hlower ?_⟩
    simp only [toList_dm,hs,String.toList_ofList,lower,List.map_append] at hq ⊢
    rw [hq]
    rfl
  · split at h
    · rename_i x hx
      obtain ⟨q,c,hs,hq,hc,_⟩ := matches_groupRoom.mp (matches_of_exec hx)
      refine .inr ⟨_,hc,hlower ?_⟩
      simp only [toList_group,hs,String.toList_ofList,lower,List.map_append] at hq ⊢
      rw [hq]
      rfl
    · simp at h

/-! ### The names themselves -/

theorem getDmRoomName_comm (a b : RawId) : getDmRoomName a b = getDmRoomName b a := by
  unfold getDmRoomName
  by_cases hab : a ≤ b <;> by_cases hba : b ≤ a
  · rw [le_antisymm hab hba]
  · rw [if_pos hab,if_neg hba]
  · rw [if_neg hab,if_pos hba]
  · exact absurd (le_total a b) (by simp [hab,hba])

theorem dm_injective (ha : isUuid a = true) (hc : isUuid c = true)
    (h : ("dm-"++a++"-"++b : String) = "dm-"++c++"-"++d) : a = c ∧ b = d := by
  have hlist := congrArg String.toList h
  rw [toList_dm,toList_dm] at hlist
  obtain ⟨hfirst,hrest⟩ := List.append_inj (List.append_cancel_left hlist)
    ((isUuid_length ha).trans (isUuid_length hc).symm)
  exact ⟨String.toList_inj.mp hfirst,String.toList_inj.mp (List.cons.inj hrest).2⟩

/-- A name belongs to one pair. -/
theorem getDmRoomName_injective (ha : isUuid a = true) (hb : isUuid b = true) (hc : isUuid c = true)
    (hd : isUuid d = true) (h : getDmRoomName a b = getDmRoomName c d) :
    a = c ∧ b = d ∨ a = d ∧ b = c := by
  rcases getDmRoomName_cases a b with hab | hab <;> rcases getDmRoomName_cases c d with hcd | hcd <;>
    rw [hab,hcd] at h
  · exact .inl (dm_injective ha hc h)
  · exact .inr (dm_injective ha hd h)
  · exact .inr (dm_injective hb hc h).symm
  · exact .inl (dm_injective hb hd h).symm

/-- What follows the kind of the room: 36 to 73 characters of the class. -/
theorem matches_rest {f : Char → Bool} {s : List Char} (hf : ∀ c, c.toLower ∈ '-'::hexDigits → f c = true)
    (hs : ∀ c ∈ s, c.toLower ∈ '-'::hexDigits) (hlow : 36 ≤ s.length) (hhigh : s.length ≤ 73) :
    Matches (.rep (.char f) 36 37) s [] :=
  matches_rep_char.mpr ⟨hlow,hhigh,fun c hc => hf c (hs c hc),rfl⟩

theorem gates_of {kind s : List Char} (hkind : kind = ['d','m'] ∨ kind = ['g','r','o','u','p'])
    (hs : ∀ c ∈ s, c.toLower ∈ '-'::hexDigits) (hlow : 36 ≤ s.length) (hhigh : s.length ≤ 73) :
    ROOM_NAME_RE.test (kind++ '-'::s) = true ∧ DTO_ROOM_RE.test (kind++ '-'::s) = true := by
  have hdash : ∀ c : Char, c.toLower ∈ '-'::hexDigits → c ∈ '-'::hexDigits++['A','B','C','D','E','F'] := by
    intro c hc
    rcases List.mem_cons.mp hc with hc | hc
    · simp [toLower_eq_dash.mp hc]
    · exact mem_dtoClass hc
  have hdm : lower kind = kind := by
    rcases hkind with rfl | rfl <;> decide
  constructor
  · refine test_iff.mpr ⟨[kind],?_⟩
    show Matches (.seq dmOrGroup.ignoreCase (.seq dash.ignoreCase _)) (kind++(['-']++s)) ([kind]++([]++[]))
    refine .seq (.group ?_) (.seq (matches_dash_ignoreCase.mpr ⟨rfl,rfl⟩)
      (matches_rest (fun c hc => by simpa using hc) hs hlow hhigh))
    rcases hkind with rfl | rfl
    · exact .left (matches_kind.mpr ⟨hdm,rfl⟩)
    · exact .right (matches_kind.mpr ⟨hdm,rfl⟩)
  · refine test_iff.mpr ⟨[kind],?_⟩
    show Matches (.seq dmOrGroup (.seq dash _)) (kind++(['-']++s)) ([kind]++([]++[]))
    refine .seq (.group ?_) (.seq (matches_dash.mpr ⟨rfl,rfl⟩)
      (matches_rest (fun c hc => decide_eq_true (hdash c hc)) hs hlow hhigh))
    rcases hkind with rfl | rfl
    · exact .left (matches_word.mpr ⟨rfl,rfl⟩)
    · exact .right (matches_word.mpr ⟨rfl,rfl⟩)

theorem gates_dm (ha : isUuid a = true) (hb : isUuid b = true) :
    ROOM_NAME_RE.test (getDmRoomName a b).toList = true ∧ DTO_ROOM_RE.test (getDmRoomName a b).toList = true := by
  have hpair : ∀ {a b : RawId}, isUuid a = true → isUuid b = true →
      ROOM_NAME_RE.test ("dm-"++a++"-"++b : String).toList = true ∧
        DTO_ROOM_RE.test ("dm-"++a++"-"++b : String).toList = true := by
    intro a b ha hb
    rw [toList_dm]
    have hgates := @gates_of ['d','m'] (a.toList++ '-'::b.toList) (.inl rfl)
    refine hgates (fun c hc => ?_) ?_ ?_
    · rcases List.mem_append.mp hc with hc | hc
      · exact isUuid_chars ha c hc
      · rcases List.mem_cons.mp hc with rfl | hc
        · decide
        · exact isUuid_chars hb c hc
    · simp [isUuid_length ha]
    · simp [isUuid_length ha,isUuid_length hb]
  rcases getDmRoomName_cases a b with hname | hname
  · rw [hname]
    exact hpair ha hb
  · rw [hname]
    exact hpair hb ha

theorem gates_group (hc : isUuid c = true) :
    ROOM_NAME_RE.test (getGroupRoomName c).toList = true ∧ DTO_ROOM_RE.test (getGroupRoomName c).toList = true := by
  rw [toList_group]
  have hgates := @gates_of ['g','r','o','u','p'] c.toList (.inr rfl)
  refine hgates (isUuid_chars hc) ?_ ?_
  · simp [isUuid_length hc]
  · simp [isUuid_length hc]

end LiveKit

end ZevraServer
