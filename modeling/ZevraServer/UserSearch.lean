import ZevraServer.Wildcards
import ZevraServer.World

/-!
# The user search

`UsersService.search` puts the escaped query between two wildcards of an `ILIKE`, which folds
the case of the pattern and of the username, character by character, and then matches with the
backslash as escape character. How the database folds and in which order it sorts usernames
are parameters.
-/

namespace ZevraServer.UserSearch

open Wildcards

/-- The columns of `publicUserColumns`. -/
structure PublicUser where
  id : Uuid
  username : String
  status : String
  keyVersion : ℕ
  createdAt : ℕ
  deriving DecidableEq, Repr

/-- A row of `users`, as far as the search reads it. -/
structure Account where
  profile : PublicUser
  isActive : Bool
  deriving DecidableEq, Repr

/-- The metacharacters of `LIKE`. -/
def like : Specials Char := ⟨'%','_','\\'⟩

/-- `input.replace(/[\\%_]/g, (ch) => '\\' + ch)`. -/
def escapeLike (input : String) : String :=
  String.ofList (input.toList.flatMap fun ch => if ch ∈ [ '\\','%','_'] then [ '\\',ch] else [ch])

/-- "LIKE pattern must not end with escape character". -/
def danglingEscape : DbError := ⟨"22025",none⟩

/-- `s ILIKE pattern`. -/
def ilike (fold : Char → Char) (s pattern : String) : Except DbError Bool :=
  match matches? like (pattern.toList.map fold) (s.toList.map fold) with
  | some b => .ok b
  | none => .error danglingEscape

/-- `%${escapeLike(query)}%`. -/
def searchPattern (query : String) : String := "%"++escapeLike query++"%"

/-- The `WHERE` of `search`. -/
def searchWhere (fold : Char → Char) (query : String) (currentUserId : Uuid) (u : Account) :
    Except DbError Bool := do
  let found ← ilike fold u.profile.username (searchPattern query)
  return found && u.profile.id ≠ currentUserId && u.isActive

def search (fold : Char → Char) (before : String → String → Bool) (users : List Account) (query : String)
    (currentUserId : Uuid) (limit : ℕ) : Except DbError (List PublicUser) := do
  let rows ← users.filterM (searchWhere fold query currentUserId)
  return ((rows.map (·.profile)).insertionSort fun u v => before u.username v.username = true).take limit

/-! ### Escaping -/

theorem toList_escapeLike (input : String) : (escapeLike input).toList = literally like input.toList := by
  simp only [escapeLike,String.toList_ofList,literally]
  congr 1
  funext ch
  have hspecial : like.IsSpecial ch ↔ ch ∈ [ '\\','%','_'] := by
    simp only [Specials.IsSpecial,like,List.mem_cons,List.not_mem_nil,or_false]
    constructor
    · rintro (h | h | h) <;> simp [h]
    · rintro (h | h | h) <;> simp [h]
  by_cases h : like.IsSpecial ch
  · rw [if_pos h,if_pos (hspecial.mp h)]
    rfl
  · rw [if_neg h,if_neg (mt hspecial.mpr h)]

theorem toList_searchPattern (query : String) :
    (searchPattern query).toList = like.sequence::(literally like query.toList++[like.sequence]) := by
  simp only [searchPattern,String.toList_append,toList_escapeLike]
  rfl

theorem map_searchPattern {fold : Char → Char} (hf : like.Respects fold) (query : String) :
    (searchPattern query).toList.map fold =
      like.sequence::(literally like (query.toList.map fold)++[like.sequence]) := by
  rw [toList_searchPattern,map_contains hf]

theorem sequence_ne_escape : like.sequence ≠ like.escape := by decide

/-- What the `ILIKE` of the search answers. -/
theorem ilike_searchPattern {fold : Char → Char} (hf : like.Respects fold) (query s : String) :
    ilike fold s (searchPattern query) = .ok (decide (query.toList.map fold <:+: s.toList.map fold)) := by
  have hmatch := matches?_contains sequence_ne_escape (query.toList.map fold) (s.toList.map fold)
  rw [← map_searchPattern hf] at hmatch
  unfold ilike
  have htokens := tokens_contains sequence_ne_escape (query.toList.map fold)
  rw [← map_searchPattern hf] at htokens
  cases h : matches? like ((searchPattern query).toList.map fold) (s.toList.map fold) with
  | none => simp [matches?,htokens] at h
  | some b =>
    rw [h] at hmatch
    cases b with
    | true => simp [hmatch.mp rfl]
    | false =>
      have hno : ¬ query.toList.map fold <:+: s.toList.map fold := fun hi => by simpa using hmatch.mpr hi
      simp [hno]

theorem searchWhere_eq {fold : Char → Char} (hf : like.Respects fold) (query : String) (currentUserId : Uuid)
    (u : Account) : searchWhere fold query currentUserId u =
      .ok (decide (query.toList.map fold <:+: u.profile.username.toList.map fold) &&
        u.profile.id ≠ currentUserId && u.isActive) := by
  simp only [searchWhere,ilike_searchPattern hf]
  rfl

theorem filterAuxM_ok {ε α : Type} {f : α → Except ε Bool} {g : α → Bool} (h : ∀ a, f a = .ok (g a))
    (l acc : List α) : l.filterAuxM f acc = .ok ((l.filter g).reverse++acc) := by
  induction l generalizing acc with
  | nil => rfl
  | cons a l ih =>
    have hstep : (a::l).filterAuxM f acc = l.filterAuxM f (cond (g a) (a::acc) acc) := by
      simp only [List.filterAuxM,h]
      rfl
    rw [hstep,ih]
    cases hg : g a <;> simp [hg]

/-- A test that never fails filters. -/
theorem filterM_ok {ε α : Type} {f : α → Except ε Bool} {g : α → Bool} (h : ∀ a, f a = .ok (g a)) (l : List α) :
    l.filterM f = .ok (l.filter g) := by
  have haux := filterAuxM_ok h l []
  simp only [List.filterM,haux]
  simp [bind,Except.bind,pure,Except.pure]

/-- The search fails on no query, and finds the active other users whose folded username
contains the folded query. -/
theorem search_eq {fold : Char → Char} (hf : like.Respects fold) (before : String → String → Bool)
    (users : List Account) (query : String) (currentUserId : Uuid) (limit : ℕ) :
    search fold before users query currentUserId limit =
      .ok ((((users.filter fun u => decide (query.toList.map fold <:+: u.profile.username.toList.map fold) &&
        u.profile.id ≠ currentUserId && u.isActive).map (·.profile)).insertionSort
          fun u v => before u.username v.username = true).take limit) := by
  simp only [search,filterM_ok (searchWhere_eq hf query currentUserId)]
  rfl

/-! ### The search is literal -/

/-- The pattern is two wildcards around literal characters, so it never ends within an escape,
and it matches the usernames that contain the query. -/
theorem search_matches_literally (fold : Char → Char) (hf : like.Respects fold) (q s : String) :
    tokens like ((searchPattern q).toList.map fold) =
      some (.sequence::((q.toList.map fold).map .literal++[.sequence])) ∧
    (ilike fold s (searchPattern q) = .ok true ↔ q.toList.map fold <:+: s.toList.map fold) ∧
    ilike fold s (searchPattern q) ≠ .error danglingEscape := by
  refine ⟨?_,?_,?_⟩
  · rw [map_searchPattern hf]
    exact tokens_contains sequence_ne_escape _
  · rw [ilike_searchPattern hf]
    simp
  · rw [ilike_searchPattern hf]
    simp

/-- A character beside the ASCII letters is folded to and from itself only. -/
theorem toLower_eq_iff {m : Char} (hm : m.toNat < 65 ∨ 90 < m.toNat ∧ m.toNat < 97) (c : Char) :
    c.toLower = m ↔ c = m := by
  unfold Char.toLower
  split
  · rename_i h
    have hlow : 65 ≤ c.val.toNat := h.1
    have hhigh : c.val.toNat ≤ 90 := h.2
    have hne : c ≠ m := by
      rintro rfl
      have hnat : c.toNat = c.val.toNat := rfl
      omega
    refine ⟨fun he => ?_,fun he => absurd he hne⟩
    have hval := congrArg (fun d : Char => d.val.toNat) he
    simp only [UInt32.toNat_add] at hval
    have hnat : m.toNat = m.val.toNat := rfl
    have hshift : ('a'.val - 'A'.val).toNat = 32 := by decide
    omega
  · rfl

theorem respects_toLower : like.Respects Char.toLower :=
  ⟨toLower_eq_iff (by decide),toLower_eq_iff (by decide),toLower_eq_iff (by decide)⟩

/-- A query of metacharacters finds itself only. -/
theorem search_matches_literally_wildcards :
    like.Respects Char.toLower ∧
    (ilike Char.toLower "A%_B" (searchPattern "%_b") = .ok true ↔
      "%_b".toList.map Char.toLower <:+: "A%_B".toList.map Char.toLower) ∧
    (ilike Char.toLower "axxb" (searchPattern "%_b") = .ok true ↔
      "%_b".toList.map Char.toLower <:+: "axxb".toList.map Char.toLower) :=
  ⟨respects_toLower,(search_matches_literally Char.toLower respects_toLower "%_b" "A%_B").2.1,
    (search_matches_literally Char.toLower respects_toLower "%_b" "axxb").2.1⟩

example : ilike Char.toLower "A%_B" (searchPattern "%_b") = .ok true := by decide +kernel

example : ilike Char.toLower "axxb" (searchPattern "%_b") = .ok false := by decide +kernel

end ZevraServer.UserSearch
