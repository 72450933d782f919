import Mathlib.Data.List.Infix
import Mathlib.Tactic.Common

/-!
# Wildcard patterns with an escape character

A pattern is a text over an alphabet with three special characters: one for any sequence, one
for any single character and one that takes the special meaning from the character after it.
The matcher tries every split of the text at a sequence wildcard. A text is made literal by
escaping its special characters; a substitution of characters that neither makes nor removes a
special character respects the escaping.
-/

namespace Wildcards

variable {α β : Type} [DecidableEq α]

/-- The special characters of an alphabet. -/
structure Specials (α : Type) where
  sequence : α
  single : α
  escape : α

def Specials.IsSpecial (w : Specials α) (c : α) : Prop := c = w.sequence ∨ c = w.single ∨ c = w.escape

instance (w : Specials α) (c : α) : Decidable (w.IsSpecial c) := by
  unfold Specials.IsSpecial
  infer_instance

inductive Token (α : Type)
  | sequence
  | single
  | literal (c : α)
  deriving DecidableEq, Repr

/-- A character of a pattern outside an escape. -/
def token (w : Specials α) (c : α) : Token α :=
  if c = w.sequence then .sequence
  else if c = w.single then .single
  else .literal c

/-- The tokens of a pattern; a pattern that ends within an escape has none. -/
def tokens (w : Specials α) : List α → Option (List (Token α))
  | [] => some []
  | c::cs =>
    if c = w.escape then
      match cs with
      | [] => none
      | d::ds => (tokens w ds).map (.literal d::·)
    else (tokens w cs).map (token w c::·)

/-- The matcher. -/
def accepts : List (Token α) → List α → Bool
  | [], s => s.isEmpty
  | .sequence::ts, s => s.tails.any (accepts ts)
  | .single::ts, s =>
    match s with
    | [] => false
    | _::s => accepts ts s
  | .literal c::ts, s =>
    match s with
    | [] => false
    | a::s => a = c && accepts ts s

/-- Whether a text matches a pattern, unless the pattern has a dangling escape. -/
def matches? (w : Specials α) (pattern s : List α) : Option Bool :=
  (tokens w pattern).map fun ts => accepts ts s

/-- Escape every special character. -/
def literally (w : Specials α) (q : List α) : List α :=
  q.flatMap fun c => if w.IsSpecial c then [w.escape,c] else [c]

/-! ### Matching -/

@[simp] theorem accepts_nil (s : List α) : accepts [] s = true ↔ s = [] := by
  simp [accepts]

theorem accepts_sequence (ts : List (Token α)) (s : List α) :
    accepts (.sequence::ts) s = true ↔ ∃ a b, s = a++b ∧ accepts ts b = true := by
  simp only [accepts,List.any_eq_true,List.mem_tails]
  constructor
  · rintro ⟨b,⟨a,rfl⟩,hb⟩
    exact ⟨a,b,rfl,hb⟩
  · rintro ⟨a,b,rfl,hb⟩
    exact ⟨b,⟨a,rfl⟩,hb⟩

theorem accepts_literals (q : List α) (ts : List (Token α)) (s : List α) :
    accepts (q.map .literal++ts) s = true ↔ ∃ b, s = q++b ∧ accepts ts b = true := by
  induction q generalizing s with
  | nil => simp
  | cons c q ih =>
    cases s with
    | nil => simp [accepts]
    | cons a s =>
      simp only [List.map_cons,List.cons_append,accepts,Bool.and_eq_true,decide_eq_true_eq,ih,
        List.cons.injEq]
      constructor
      · rintro ⟨rfl,b,rfl,hb⟩
        exact ⟨b,⟨rfl,rfl⟩,hb⟩
      · rintro ⟨b,⟨rfl,rfl⟩,hb⟩
        exact ⟨rfl,b,rfl,hb⟩

/-- A literal text between two sequence wildcards is a contiguous part. -/
theorem accepts_infix (q s : List α) :
    accepts (.sequence::(q.map .literal++[.sequence])) s = true ↔ q <:+: s := by
  rw [accepts_sequence]
  constructor
  · rintro ⟨a,b,rfl,hb⟩
    obtain ⟨c,rfl,_⟩ := (accepts_literals q _ b).mp hb
    exact ⟨a,c,by simp⟩
  · rintro ⟨a,c,rfl⟩
    have hend : accepts [(.sequence : Token α)] c = true :=
      (accepts_sequence [] c).mpr ⟨c,[],by simp,by simp⟩
    exact ⟨a,q++c,by simp,(accepts_literals q _ _).mpr ⟨c,rfl,hend⟩⟩

/-! ### Escaping -/

theorem token_of_not_special {w : Specials α} {c : α} (h : ¬ w.IsSpecial c) : token w c = .literal c := by
  simp only [Specials.IsSpecial,not_or] at h
  simp [token,h.1,h.2.1]

theorem tokens_escape (w : Specials α) (d : α) (ds : List α) :
    tokens w (w.escape::d::ds) = (tokens w ds).map (.literal d::·) := by
  simp [tokens]

theorem tokens_cons {w : Specials α} {c : α} (h : c ≠ w.escape) (cs : List α) :
    tokens w (c::cs) = (tokens w cs).map (token w c::·) := by
  cases cs <;> simp [tokens,h]

/-- An escaped text is read as its literal characters, whatever follows it. -/
theorem tokens_literally (w : Specials α) (q p : List α) :
    tokens w (literally w q++p) = (tokens w p).map (q.map .literal++·) := by
  induction q with
  | nil => simp [literally]
  | cons c q ih =>
    have hcons : literally w (c::q) = (if w.IsSpecial c then [w.escape,c] else [c])++literally w q := by
      simp [literally]
    rw [hcons]
    by_cases hc : w.IsSpecial c
    · simp only [if_pos hc,List.cons_append,List.nil_append,tokens_escape,ih]
      cases tokens w p <;> simp
    · have hne : c ≠ w.escape := fun he => hc (.inr (.inr he))
      simp only [if_neg hc,List.cons_append,List.nil_append,tokens_cons hne,ih,token_of_not_special hc]
      cases tokens w p <;> simp

theorem tokens_sequence {w : Specials α} (hw : w.sequence ≠ w.escape) (p : List α) :
    tokens w (w.sequence::p) = (tokens w p).map (.sequence::·) := by
  rw [tokens_cons hw]
  simp [token]

/-- The pattern for a contiguous part has no dangling escape and no wildcard but its ends. -/
theorem tokens_contains {w : Specials α} (hw : w.sequence ≠ w.escape) (q : List α) :
    tokens w (w.sequence::(literally w q++[w.sequence])) = some (.sequence::(q.map .literal++[.sequence])) := by
  have hnil : tokens w [] = some [] := rfl
  rw [tokens_sequence hw,tokens_literally,tokens_sequence hw,hnil]
  simp

theorem matches?_contains {w : Specials α} (hw : w.sequence ≠ w.escape) (q s : List α) :
    matches? w (w.sequence::(literally w q++[w.sequence])) s = some true ↔ q <:+: s := by
  simp only [matches?,tokens_contains hw,Option.map_some,Option.some.injEq]
  exact accepts_infix q s

/-! ### Substitutions -/

/-- A substitution that keeps the special characters and makes no new ones. -/
structure Specials.Respects (w : Specials α) (f : α → α) : Prop where
  sequence : ∀ c, f c = w.sequence ↔ c = w.sequence
  single : ∀ c, f c = w.single ↔ c = w.single
  escape : ∀ c, f c = w.escape ↔ c = w.escape

variable {w : Specials α} {f : α → α}

omit [DecidableEq α] in
theorem Specials.Respects.isSpecial (hf : w.Respects f) (c : α) : w.IsSpecial (f c) ↔ w.IsSpecial c := by
  simp only [IsSpecial,hf.sequence,hf.single,hf.escape]

theorem map_literally (hf : w.Respects f) (q : List α) :
    (literally w q).map f = literally w (q.map f) := by
  induction q with
  | nil => rfl
  | cons c q ih =>
    have hescape : f w.escape = w.escape := (hf.escape _).mpr rfl
    simp only [literally,List.flatMap_cons,List.map_append,List.map_cons] at ih ⊢
    rw [ih]
    by_cases hc : w.IsSpecial c
    · simp [hc,(hf.isSpecial c).mpr hc,hescape]
    · simp [hc,mt (hf.isSpecial c).mp hc]

theorem map_contains (hf : w.Respects f) (q : List α) :
    (w.sequence::(literally w q++[w.sequence])).map f =
      w.sequence::(literally w (q.map f)++[w.sequence]) := by
  have hsequence : f w.sequence = w.sequence := (hf.sequence _).mpr rfl
  simp [map_literally hf,hsequence]

end Wildcards
