import ZevraServer.Hex
import Mathlib.Tactic.IntervalCases

/-!
# JSON texts of flat objects

Objects whose members are strings or `null`, written without blanks and read with
blanks between the tokens. Strings are escaped as `JSON.stringify` does it. The reader
takes the escapes of JSON, except that a `\u` escape names one character.
-/

namespace Json

/-- A member of an object: `null` or a string. -/
abbrev Member := List Char × Option (List Char)

/-- The two-character escapes. -/
def shortEscapes : List (Char × Char) :=
  [('"','"'),('\\','\\'),('\x08','b'),('\x0c','f'),('\n','n'),('\r','r'),('\t','t')]

def unicodeEscape (n : ℕ) : List Char :=
  '\\':: 'u'::[Nat.digitChar (n/4096 % 16),Nat.digitChar (n/256 % 16),Nat.digitChar (n/16 % 16),
    Nat.digitChar (n % 16)]

def escape (c : Char) : List Char :=
  match shortEscapes.find? (·.1 = c) with
  | some e => ['\\',e.2]
  | none => if c.toNat < 32 then unicodeEscape c.toNat else [c]

def quote (s : List Char) : List Char := '"'::s.flatMap escape++['"']

def literal : Option (List Char) → List Char
  | none => ['n','u','l','l']
  | some s => quote s

def member (m : Member) : List Char := quote m.1++ ':'::literal m.2

def members : List Member → List Char
  | [] => []
  | [m] => member m
  | m::ms => member m++ ','::members ms

def stringify (ms : List Member) : List Char := '\x7b'::members ms++['\x7d']

/-! ### Reading -/

def isBlank (c : Char) : Bool := c = ' ' || c = '\n' || c = '\r' || c = '\t'

def skip (s : List Char) : List Char := s.dropWhile isBlank

/-- The rest of the text after a token. -/
def token (c : Char) (s : List Char) : Option (List Char) :=
  match skip s with
  | d::s => if d = c then some s else none
  | [] => none

/-- The characters of a string up to the closing quotation mark. -/
def readString : List Char → Option (List Char × List Char)
  | '"'::s => some ([],s)
  | '\\':: 'u'::a::b::c::d::s => do
    let n ← Hex.read 0 [a,b,c,d]
    if n.isValidChar then (readString s).map fun r => (Char.ofNat n::r.1,r.2) else none
  | '\\'::e::s => do
    let c ← (('/','/')::shortEscapes).find? (·.2 = e)
    (readString s).map fun r => (c.1::r.1,r.2)
  | c::s => if c.toNat < 32 then none else (readString s).map fun r => (c::r.1,r.2)
  | [] => none

def readLiteral (s : List Char) : Option (Option (List Char) × List Char) :=
  match skip s with
  | '"'::s => (readString s).map fun r => (some r.1,r.2)
  | 'n':: 'u':: 'l':: 'l'::s => some (none,s)
  | _ => none

def readMember (s : List Char) : Option (Member × List Char) := do
  let s ← token '"' s
  let k ← readString s
  let s ← token ':' k.2
  let v ← readLiteral s
  some ((k.1,v.1),v.2)

/-- The members up to the closing brace; at most as many as the first argument. -/
def readMembers : ℕ → List Char → Option (List Member × List Char)
  | 0, _ => none
  | n+1, s => do
    let m ← readMember s
    match token ',' m.2 with
    | some s => (readMembers n s).map fun r => (m.1::r.1,r.2)
    | none => (token '\x7d' m.2).map fun s => ([m.1],s)

/-- The members of the object a text holds. -/
def parse (s : List Char) : Option (List Member) := do
  let body ← token '\x7b' s
  let r ← match token '\x7d' body with
    | some s => some ([],s)
    | none => readMembers body.length body
  if skip r.2 = [] then some r.1 else none

/-- The value of a property: the last member of that name counts. -/
def get? (ms : List Member) (k : List Char) : Option (Option (List Char)) :=
  (ms.reverse.find? (·.1 = k)).map (·.2)

/-! ### What is written is read back -/

theorem readString_control {n : ℕ} (hn : n < 32) (s : List Char) :
    readString (escape (Char.ofNat n)++s) = (readString s).map fun r => (Char.ofNat n::r.1,r.2) := by
  interval_cases n <;> rfl

theorem readString_plain {c : Char} (hc : 32 ≤ c.toNat) (hq : c ≠ '"') (hb : c ≠ '\\')
    (s : List Char) : readString (escape c++s) = (readString s).map fun r => (c::r.1,r.2) := by
  have hnot : ¬ c.toNat < 32 := by omega
  have hlow : ∀ d : Char, d.toNat < 32 → d ≠ c := by
    rintro d hd rfl
    exact hnot hd
  have hnone : shortEscapes.find? (·.1 = c) = none := by
    simp [shortEscapes,hq.symm,hb.symm,hlow '\x08' (by decide),hlow '\x0c' (by decide),
      hlow '\n' (by decide),hlow '\r' (by decide),hlow '\t' (by decide)]
  have hself : escape c = [c] := by rw [escape,hnone,if_neg hnot]
  rw [hself,List.singleton_append,readString]
  · rw [if_neg hnot]
  · exact hq
  · exact fun _ _ _ _ _ h _ => hb h
  · exact fun _ _ h _ => hb h

theorem readString_escape (c : Char) (s : List Char) :
    readString (escape c++s) = (readString s).map fun r => (c::r.1,r.2) := by
  by_cases hq : c = '"'
  · subst hq
    rfl
  by_cases hb : c = '\\'
  · subst hb
    rfl
  by_cases hc : c.toNat < 32
  · have h := readString_control hc s
    rwa [Char.ofNat_toNat] at h
  · exact readString_plain (by omega) hq hb s

theorem readString_quote (l t : List Char) :
    readString (l.flatMap escape++ '"'::t) = some (l,t) := by
  induction l with
  | nil => rfl
  | cons c l ih => rw [List.flatMap_cons,List.append_assoc,readString_escape,ih,Option.map_some]

theorem skip_cons {c : Char} (h : isBlank c = false) (s : List Char) : skip (c::s) = c::s := by
  simp [skip,h]

theorem token_cons {c : Char} (h : isBlank c = false) (s : List Char) : token c (c::s) = some s := by
  simp [token,skip_cons h]

theorem token_cons_ne {c d : Char} (h : isBlank d = false) (hne : d ≠ c) (s : List Char) :
    token c (d::s) = none := by
  simp [token,skip_cons h,hne]

theorem readLiteral_literal (v : Option (List Char)) (t : List Char) :
    readLiteral (literal v++t) = some (v,t) := by
  cases v with
  | none => rfl
  | some s =>
    have hskip := skip_cons (show isBlank '"' = false from rfl) (s.flatMap escape++ '"'::t)
    simp [literal,quote,readLiteral,hskip,readString_quote]

theorem readMember_member (m : Member) (t : List Char) : readMember (member m++t) = some (m,t) := by
  have hquote : member m++t = '"'::(m.1.flatMap escape++ '"':: ':'::(literal m.2++t)) := by
    simp [member,quote]
  rw [hquote,readMember,token_cons rfl]
  simp only [Option.bind_eq_bind,Option.bind_some,readString_quote,
    token_cons (show isBlank ':' = false from rfl),readLiteral_literal]

theorem members_cons (m m' : Member) (ms : List Member) :
    members (m::m'::ms) = member m++ ','::members (m'::ms) := rfl

theorem readMembers_members {n : ℕ} {m : Member} {ms : List Member} (h : ms.length < n) (t : List Char) :
    readMembers n (members (m::ms)++ '\x7d'::t) = some (m::ms,t) := by
  induction ms generalizing n m with
  | nil =>
    cases n with
    | zero => simp at h
    | succ n =>
      simp only [members,readMembers,readMember_member,Option.bind_eq_bind,Option.bind_some,
        token_cons_ne (show isBlank '\x7d' = false from rfl) (show '\x7d' ≠ ',' by decide),
        token_cons (show isBlank '\x7d' = false from rfl),Option.map_some]
  | cons m' ms ih =>
    cases n with
    | zero => simp at h
    | succ n =>
      have hrec := ih (m := m') (n := n) (by simpa using h)
      simp only [members_cons,List.append_assoc,List.cons_append,readMembers,readMember_member,
        Option.bind_eq_bind,Option.bind_some,token_cons (show isBlank ',' = false from rfl),hrec,
        Option.map_some]

theorem length_le_members (m : Member) (ms : List Member) : ms.length < (members (m::ms)).length := by
  induction ms generalizing m with
  | nil => simp [members,member,quote]
  | cons m' ms ih =>
    have hrec := ih m'
    simp only [members_cons,List.length_append,List.length_cons] at hrec ⊢
    omega

/-- Every object is read back from its text. -/
@[simp] theorem parse_stringify (ms : List Member) : parse (stringify ms) = some ms := by
  have hopen : isBlank '\x7b' = false := rfl
  have hclose : isBlank '\x7d' = false := rfl
  cases ms with
  | nil => rfl
  | cons m ms =>
    have hlen : ms.length < (members (m::ms)++['\x7d']).length := by
      have := length_le_members m ms
      simp only [List.length_append]
      omega
    have hfirst : token '\x7d' (members (m::ms)++['\x7d']) = none := by
      have hhead : ∃ s, members (m::ms)++['\x7d'] = '"'::s := by
        cases ms with
        | nil => exact ⟨_,rfl⟩
        | cons m' ms => exact ⟨_,rfl⟩
      obtain ⟨s,hs⟩ := hhead
      rw [hs]
      exact token_cons_ne rfl (by decide) s
    have hbody : '\x7b'::members (m::ms)++['\x7d'] = '\x7b'::(members (m::ms)++['\x7d']) := rfl
    rw [parse,stringify,hbody,token_cons hopen]
    simp only [Option.bind_eq_bind,Option.bind_some,hfirst,readMembers_members hlen]
    rfl

end Json
