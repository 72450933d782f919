import Mathlib.Data.List.Basic
import Mathlib.Tactic.Common

/-!
# Regular expressions with captures

Patterns of character classes, sequences, alternatives, bounded repetitions and groups.
`run` lists the ways a backtracking matcher can match a beginning of a text, in the order in
which it tries them, and `exec` takes the first that uses the whole text. `Matches` is the
language of a pattern: which texts it matches, and with which captures.

A pattern is rigid if the lengths of its parts are fixed. It matches a text in at most one
way, so what `exec` captures can be read off the language.
-/

namespace Patterns

inductive Pattern
  | empty
  | char (p : Char → Bool)
  | seq (a b : Pattern)
  | alt (a b : Pattern)
  | rep (a : Pattern) (m n : ℕ)
  | group (a : Pattern)

/-- The captures of a match and the rest of the text. -/
abbrev Way := List (List Char) × List Char

/-- One match after the other. -/
def after (f g : List Char → List Way) (cs : List Char) : List Way :=
  (f cs).flatMap fun r => (g r.2).map fun s => (r.1++s.1,s.2)

/-- Match at most `n` times, as often as possible. -/
def upTo (f : List Char → List Way) : ℕ → List Char → List Way
  | 0, cs => [([],cs)]
  | n+1, cs => after f (upTo f n) cs++[([],cs)]

/-- Match between `m` and `m+n` times. -/
def times (f : List Char → List Way) (n : ℕ) : ℕ → List Char → List Way
  | 0, cs => upTo f n cs
  | m+1, cs => after f (times f n m) cs

namespace Pattern

def run : Pattern → List Char → List Way
  | .empty, cs => [([],cs)]
  | .char _, [] => []
  | .char p, c::cs => if p c then [([],cs)] else []
  | .seq a b, cs => after a.run b.run cs
  | .alt a b, cs => a.run cs++b.run cs
  | .rep a m n, cs => times a.run n m cs
  | .group a, cs => (a.run cs).map fun r => (cs.take (cs.length-r.2.length)::r.1,r.2)

/-- `^…$`: the captures of the first way that uses the whole text. -/
def exec (p : Pattern) (cs : List Char) : Option (List (List Char)) :=
  ((p.run cs).find? (·.2.isEmpty)).map (·.1)

def test (p : Pattern) (cs : List Char) : Bool := (p.exec cs).isSome

/-- A text, character by character. -/
def word : List Char → Pattern
  | [] => .empty
  | c::cs => .seq (.char (· == c)) (word cs)

/-- The flag `i`, for a pattern without capitals. -/
def ignoreCase : Pattern → Pattern
  | .empty => .empty
  | .char p => .char fun c => p c.toLower
  | .seq a b => .seq a.ignoreCase b.ignoreCase
  | .alt a b => .alt a.ignoreCase b.ignoreCase
  | .rep a m n => .rep a.ignoreCase m n
  | .group a => .group a.ignoreCase

/-- The length of what is matched, if it is fixed. -/
def width? : Pattern → Option ℕ
  | .empty => some 0
  | .char _ => some 1
  | .seq a b => (a.width?).bind fun m => (b.width?).map fun n => m+n
  | .alt _ _ => none
  | .rep a m n => if n = 0 then (a.width?).map fun k => m*k else none
  | .group a => a.width?

def Rigid (p : Pattern) : Prop := p.width?.isSome = true

end Pattern

/-! ### The language -/

inductive Matches : Pattern → List Char → List (List Char) → Prop
  | empty : Matches .empty [] []
  | char {p c} : p c = true → Matches (.char p) [c] []
  | seq {a b s t g h} : Matches a s g → Matches b t h → Matches (.seq a b) (s++t) (g++h)
  | left {a b s g} : Matches a s g → Matches (.alt a b) s g
  | right {a b s g} : Matches b s g → Matches (.alt a b) s g
  | stop {a n} : Matches (.rep a 0 n) [] []
  | more {a n s t g h} : Matches a s g → Matches (.rep a 0 n) t h → Matches (.rep a 0 (n+1)) (s++t) (g++h)
  | again {a m n s t g h} : Matches a s g → Matches (.rep a m n) t h →
      Matches (.rep a (m+1) n) (s++t) (g++h)
  | group {a s g} : Matches a s g → Matches (.group a) s (s::g)

variable {p a b : Pattern} {s t cs : List Char} {g h : List (List Char)} {m n : ℕ}

/-- `f` lists the ways of the pattern. -/
def Lists (f : List Char → List Way) (a : Pattern) : Prop :=
  ∀ cs g t, (g,t) ∈ f cs ↔ ∃ s, cs = s++t ∧ Matches a s g

theorem mem_after {f k : List Char → List Way} (hf : Lists f a) (hk : Lists k b) {t : List Char} :
    (g,t) ∈ after f k cs ↔
      ∃ s₁ s₂ g₁ g₂, cs = s₁++s₂++t ∧ g = g₁++g₂ ∧ Matches a s₁ g₁ ∧ Matches b s₂ g₂ := by
  constructor
  · intro hmem
    obtain ⟨⟨g₁,t₁⟩,hr,hrest⟩ := List.mem_flatMap.mp hmem
    obtain ⟨⟨g₂,t₂⟩,hs,he⟩ := List.mem_map.mp hrest
    obtain ⟨rfl,rfl⟩ := Prod.mk.inj he
    obtain ⟨s₁,rfl,h₁⟩ := (hf _ _ _).mp hr
    obtain ⟨s₂,rfl,h₂⟩ := (hk _ _ _).mp hs
    exact ⟨s₁,s₂,g₁,g₂,by simp,rfl,h₁,h₂⟩
  · rintro ⟨s₁,s₂,g₁,g₂,rfl,rfl,h₁,h₂⟩
    refine List.mem_flatMap.mpr ⟨(g₁,s₂++t),(hf _ _ _).mpr ⟨s₁,by simp,h₁⟩,?_⟩
    exact List.mem_map.mpr ⟨(g₂,t),(hk _ _ _).mpr ⟨s₂,rfl,h₂⟩,rfl⟩

theorem lists_upTo {f : List Char → List Way} (hf : Lists f a) (n : ℕ) : Lists (upTo f n) (.rep a 0 n) := by
  induction n with
  | zero =>
    intro cs g t
    simp only [upTo,List.mem_singleton,Prod.mk.injEq]
    constructor
    · rintro ⟨rfl,rfl⟩
      exact ⟨[],rfl,.stop⟩
    · rintro ⟨s,rfl,hs⟩
      cases hs
      exact ⟨rfl,rfl⟩
  | succ n ih =>
    intro cs g t
    simp only [upTo,List.mem_append,mem_after hf ih,List.mem_singleton,Prod.mk.injEq]
    constructor
    · rintro (⟨s₁,s₂,g₁,g₂,rfl,rfl,h₁,h₂⟩ | ⟨rfl,rfl⟩)
      · exact ⟨s₁++s₂,rfl,.more h₁ h₂⟩
      · exact ⟨[],rfl,.stop⟩
    · rintro ⟨s,rfl,hs⟩
      cases hs with
      | stop => exact .inr ⟨rfl,rfl⟩
      | more h₁ h₂ => exact .inl ⟨_,_,_,_,rfl,rfl,h₁,h₂⟩

theorem lists_times {f : List Char → List Way} (hf : Lists f a) (m n : ℕ) : Lists (times f n m) (.rep a m n) := by
  induction m with
  | zero => exact lists_upTo hf n
  | succ m ih =>
    intro cs g t
    simp only [times,mem_after hf ih]
    constructor
    · rintro ⟨s₁,s₂,g₁,g₂,rfl,rfl,h₁,h₂⟩
      exact ⟨s₁++s₂,rfl,.again h₁ h₂⟩
    · rintro ⟨s,rfl,hs⟩
      cases hs with
      | again h₁ h₂ => exact ⟨_,_,_,_,rfl,rfl,h₁,h₂⟩

/-- The matcher finds what the language allows. -/
theorem lists_run (p : Pattern) : Lists p.run p := by
  induction p with
  | empty =>
    intro cs g t
    simp only [Pattern.run,List.mem_singleton,Prod.mk.injEq]
    constructor
    · rintro ⟨rfl,rfl⟩
      exact ⟨[],rfl,.empty⟩
    · rintro ⟨s,rfl,hs⟩
      cases hs
      exact ⟨rfl,rfl⟩
  | char p =>
    intro cs g t
    constructor
    · intro hmem
      cases cs with
      | nil => simp [Pattern.run] at hmem
      | cons c cs =>
        simp only [Pattern.run] at hmem
        split at hmem
        · rename_i hp
          obtain ⟨rfl,rfl⟩ := Prod.mk.inj (List.mem_singleton.mp hmem)
          exact ⟨[c],rfl,.char hp⟩
        · simp at hmem
    · rintro ⟨s,rfl,hs⟩
      cases hs with
      | char hp => simp [Pattern.run,hp]
  | seq a b iha ihb =>
    intro cs g t
    simp only [Pattern.run,mem_after iha ihb]
    constructor
    · rintro ⟨s₁,s₂,g₁,g₂,rfl,rfl,h₁,h₂⟩
      exact ⟨s₁++s₂,rfl,.seq h₁ h₂⟩
    · rintro ⟨s,rfl,hs⟩
      cases hs with
      | seq h₁ h₂ => exact ⟨_,_,_,_,rfl,rfl,h₁,h₂⟩
  | alt a b iha ihb =>
    intro cs g t
    simp only [Pattern.run,List.mem_append,iha cs g t,ihb cs g t]
    constructor
    · rintro (⟨s,rfl,hs⟩ | ⟨s,rfl,hs⟩)
      · exact ⟨s,rfl,.left hs⟩
      · exact ⟨s,rfl,.right hs⟩
    · rintro ⟨s,rfl,hs⟩
      cases hs with
      | left hs => exact .inl ⟨s,rfl,hs⟩
      | right hs => exact .inr ⟨s,rfl,hs⟩
  | rep a m n ih => exact lists_times ih m n
  | group a ih =>
    intro cs g t
    simp only [Pattern.run,List.mem_map]
    constructor
    · rintro ⟨⟨g₁,t₁⟩,hr,he⟩
      obtain ⟨rfl,rfl⟩ := Prod.mk.inj he
      obtain ⟨s,rfl,hs⟩ := (ih _ _ _).mp hr
      exact ⟨s,rfl,by simpa using Matches.group hs⟩
    · rintro ⟨s,rfl,hs⟩
      cases hs with
      | @group _ _ g hs => exact ⟨(g,t),(ih _ _ _).mpr ⟨s,rfl,hs⟩,by simp⟩

theorem matches_of_exec (hx : p.exec cs = some g) : Matches p cs g := by
  obtain ⟨⟨g',t⟩,hfind,rfl⟩ := Option.map_eq_some_iff.mp hx
  obtain ⟨s,rfl,hs⟩ := (lists_run p _ _ _).mp (List.mem_of_find?_eq_some hfind)
  have ht := List.find?_some hfind
  simp only [List.isEmpty_iff] at ht
  simpa [ht] using hs

theorem exec_isSome (hm : Matches p cs g) : (p.exec cs).isSome = true := by
  have hmem : (g,[]) ∈ p.run cs := (lists_run p _ _ _).mpr ⟨cs,by simp,hm⟩
  unfold Pattern.exec
  rw [Option.isSome_map,List.find?_isSome]
  exact ⟨_,hmem,rfl⟩

theorem test_iff : p.test cs = true ↔ ∃ g, Matches p cs g := by
  constructor
  · intro ht
    obtain ⟨g,hg⟩ := Option.isSome_iff_exists.mp ht
    exact ⟨g,matches_of_exec hg⟩
  · rintro ⟨g,hg⟩
    exact exec_isSome hg

/-! ### Rigid patterns -/

theorem width?_seq (h : (Pattern.seq a b).width? = some n) :
    ∃ i j, a.width? = some i ∧ b.width? = some j ∧ n = i+j := by
  obtain ⟨i,hi,h⟩ := Option.bind_eq_some_iff.mp h
  obtain ⟨j,hj,rfl⟩ := Option.map_eq_some_iff.mp h
  exact ⟨i,j,hi,hj,rfl⟩

theorem width?_rep {k : ℕ} (h : (Pattern.rep a m n).width? = some k) :
    n = 0 ∧ ∃ i, a.width? = some i ∧ k = m*i := by
  simp only [Pattern.width?] at h
  split at h
  · rename_i hn
    obtain ⟨i,hi,rfl⟩ := Option.map_eq_some_iff.mp h
    exact ⟨hn,i,hi,rfl⟩
  · simp at h

/-- What is matched has the width of the pattern. -/
theorem Matches.length (hm : Matches p s g) : ∀ n, p.width? = some n → s.length = n := by
  induction hm with
  | empty =>
    intro n hn
    exact Option.some.inj hn
  | char =>
    intro n hn
    exact Option.some.inj hn
  | seq _ _ iha ihb =>
    intro n hn
    obtain ⟨i,j,hi,hj,rfl⟩ := width?_seq hn
    rw [List.length_append,iha i hi,ihb j hj]
  | left => simp [Pattern.width?]
  | right => simp [Pattern.width?]
  | stop =>
    intro n hn
    obtain ⟨_,i,_,rfl⟩ := width?_rep hn
    simp
  | more =>
    intro n hn
    simpa using (width?_rep hn).1
  | @again a m l s t g h _ _ iha ihb =>
    intro n hn
    obtain ⟨rfl,i,hi,rfl⟩ := width?_rep hn
    have hrest := ihb (m*i) (by simp [Pattern.width?,hi])
    rw [List.length_append,iha i hi,hrest,Nat.succ_mul,Nat.add_comm]
  | group _ ih => exact ih

/-- A rigid pattern captures one thing. -/
theorem Matches.unique (hm : Matches p s g) (hp : p.Rigid) : ∀ h, Matches p s h → h = g := by
  induction hm with
  | empty =>
    intro h hh
    cases hh
    rfl
  | char =>
    intro h hh
    cases hh
    rfl
  | @seq a b s t g₁ g₂ ha hb iha ihb =>
    intro h hh
    obtain ⟨n,hn⟩ := Option.isSome_iff_exists.mp hp
    obtain ⟨i,j,hi,hj,_⟩ := width?_seq hn
    generalize he : s++t = u at hh
    cases hh with
    | @seq _ _ s' t' g₁' g₂' ha' hb' =>
      have hlen : s.length = s'.length := by rw [ha.length i hi,ha'.length i hi]
      obtain ⟨rfl,rfl⟩ := List.append_inj he hlen
      rw [iha (by simp [Pattern.Rigid,hi]) _ ha',ihb (by simp [Pattern.Rigid,hj]) _ hb']
  | left => simp [Pattern.Rigid,Pattern.width?] at hp
  | right => simp [Pattern.Rigid,Pattern.width?] at hp
  | stop =>
    intro h hh
    generalize he : ([] : List Char) = u at hh
    cases hh with
    | stop => rfl
    | more =>
      obtain ⟨n,hn⟩ := Option.isSome_iff_exists.mp hp
      simpa using (width?_rep hn).1
  | more =>
    obtain ⟨n,hn⟩ := Option.isSome_iff_exists.mp hp
    simpa using (width?_rep hn).1
  | @again a m l s t g₁ g₂ ha hb iha ihb =>
    intro h hh
    obtain ⟨n,hn⟩ := Option.isSome_iff_exists.mp hp
    obtain ⟨rfl,i,hi,_⟩ := width?_rep hn
    generalize he : s++t = u at hh
    cases hh with
    | @again _ _ _ s' t' g₁' g₂' ha' hb' =>
      have hlen : s.length = s'.length := by rw [ha.length i hi,ha'.length i hi]
      obtain ⟨rfl,rfl⟩ := List.append_inj he hlen
      have hrest : (Pattern.rep a m 0).Rigid := by simp [Pattern.Rigid,Pattern.width?,hi]
      rw [iha (by simp [Pattern.Rigid,hi]) _ ha',ihb hrest _ hb']
  | group _ ih =>
    intro h hh
    cases hh with
    | group hh => rw [ih hp _ hh]

/-- What a rigid pattern captures is what `exec` returns. -/
theorem exec_iff (hp : p.Rigid) : p.exec cs = some g ↔ Matches p cs g := by
  constructor
  · exact matches_of_exec
  · intro hm
    obtain ⟨h,hh⟩ := Option.isSome_iff_exists.mp (exec_isSome hm)
    rw [hh,hm.unique hp h (matches_of_exec hh)]

theorem exec_eq_none_iff : p.exec cs = none ↔ ∀ g, ¬ Matches p cs g := by
  constructor
  · intro hx g hm
    have hsome := exec_isSome hm
    simp [hx] at hsome
  · intro hm
    rw [Option.eq_none_iff_forall_ne_some]
    exact fun g hx => hm g (matches_of_exec hx)

/-! ### Parts -/

theorem matches_char {f : Char → Bool} : Matches (.char f) s g ↔ ∃ c, f c = true ∧ s = [c] ∧ g = [] := by
  constructor
  · intro hm
    cases hm with
    | char hc => exact ⟨_,hc,rfl,rfl⟩
  · rintro ⟨c,hc,rfl,rfl⟩
    exact .char hc

theorem matches_seq : Matches (.seq a b) s g ↔
    ∃ s₁ s₂ g₁ g₂, s = s₁++s₂ ∧ g = g₁++g₂ ∧ Matches a s₁ g₁ ∧ Matches b s₂ g₂ := by
  constructor
  · intro hm
    cases hm with
    | seq ha hb => exact ⟨_,_,_,_,rfl,rfl,ha,hb⟩
  · rintro ⟨s₁,s₂,g₁,g₂,rfl,rfl,ha,hb⟩
    exact .seq ha hb

theorem matches_group : Matches (.group a) s g ↔ ∃ h, g = s::h ∧ Matches a s h := by
  constructor
  · intro hm
    cases hm with
    | group hm => exact ⟨_,rfl,hm⟩
  · rintro ⟨h,rfl,hm⟩
    exact .group hm

theorem matches_word : Matches (.word cs) s g ↔ s = cs ∧ g = [] := by
  induction cs generalizing s g with
  | nil =>
    constructor
    · intro hm
      cases hm
      exact ⟨rfl,rfl⟩
    · rintro ⟨rfl,rfl⟩
      exact .empty
  | cons c cs ih =>
    simp only [Pattern.word,matches_seq,matches_char,ih,beq_iff_eq]
    constructor
    · rintro ⟨_,_,_,_,rfl,rfl,⟨_,rfl,rfl,rfl⟩,rfl,rfl⟩
      exact ⟨rfl,rfl⟩
    · rintro ⟨rfl,rfl⟩
      exact ⟨[c],cs,[],[],rfl,rfl,⟨c,rfl,rfl,rfl⟩,rfl,rfl⟩

/-- A class, a bounded number of times. -/
theorem matches_rep_char {f : Char → Bool} : Matches (.rep (.char f) m n) s g ↔
    m ≤ s.length ∧ s.length ≤ m+n ∧ (∀ c ∈ s, f c = true) ∧ g = [] := by
  constructor
  · intro hm
    generalize hp : Pattern.rep (.char f) m n = p at hm
    induction hm generalizing m n with
    | stop =>
      obtain ⟨_,rfl,rfl⟩ := Pattern.rep.inj hp
      simp
    | more ha _ _ ih =>
      obtain ⟨rfl,rfl,rfl⟩ := Pattern.rep.inj hp
      obtain ⟨c,hc,rfl,rfl⟩ := matches_char.mp ha
      obtain ⟨_,hle,hall,rfl⟩ := ih rfl
      refine ⟨by simp,?_,?_,rfl⟩
      · simp only [List.length_append,List.length_singleton]
        omega
      · simpa [hc] using hall
    | again ha _ _ ih =>
      obtain ⟨rfl,rfl,rfl⟩ := Pattern.rep.inj hp
      obtain ⟨c,hc,rfl,rfl⟩ := matches_char.mp ha
      obtain ⟨hlow,hle,hall,rfl⟩ := ih rfl
      refine ⟨?_,?_,?_,rfl⟩
      · simp only [List.length_append,List.length_singleton]
        omega
      · simp only [List.length_append,List.length_singleton]
        omega
      · simpa [hc] using hall
    | _ => simp at hp
  · rintro ⟨hlow,hle,hall,rfl⟩
    induction s generalizing m n with
    | nil =>
      obtain rfl : m = 0 := by simpa using hlow
      exact .stop
    | cons c s ih =>
      have hc : Matches (.char f) [c] [] := .char (hall c List.mem_cons_self)
      have hrest := fun d hd => hall d (List.mem_cons_of_mem _ hd)
      simp only [List.length_cons] at hlow hle
      cases m with
      | zero =>
        cases n with
        | zero => omega
        | succ n => exact .more hc (ih (by omega) (by omega) hrest)
      | succ m => exact .again hc (ih (by omega) (by omega) hrest)

/-! ### The flag `i` -/

abbrev lower (s : List Char) : List Char := s.map Char.toLower

theorem matches_lower_rep (ha : ∀ s g, Matches a.ignoreCase s g → Matches a (lower s) (g.map lower))
    (hm : Matches (.rep a.ignoreCase m n) s g) : Matches (.rep a m n) (lower s) (g.map lower) := by
  generalize hp : Pattern.rep a.ignoreCase m n = p at hm
  induction hm generalizing m n with
  | stop =>
    obtain ⟨_,rfl,rfl⟩ := Pattern.rep.inj hp
    exact .stop
  | more h₁ _ _ ih =>
    obtain ⟨rfl,rfl,rfl⟩ := Pattern.rep.inj hp
    simpa [lower] using (ha _ _ h₁).more (ih rfl)
  | again h₁ _ _ ih =>
    obtain ⟨rfl,rfl,rfl⟩ := Pattern.rep.inj hp
    simpa [lower] using (ha _ _ h₁).again (ih rfl)
  | _ => simp at hp

/-- What matches without regard to case matches in lower case. -/
theorem matches_lower (p : Pattern) :
    ∀ s g, Matches p.ignoreCase s g → Matches p (lower s) (g.map lower) := by
  induction p with
  | empty =>
    intro s g hm
    cases hm
    exact .empty
  | char f =>
    intro s g hm
    cases hm with
    | char hc => exact .char hc
  | seq a b iha ihb =>
    intro s g hm
    cases hm with
    | seq h₁ h₂ => simpa [lower] using (iha _ _ h₁).seq (ihb _ _ h₂)
  | alt a b iha ihb =>
    intro s g hm
    cases hm with
    | left h => exact .left (iha _ _ h)
    | right h => exact .right (ihb _ _ h)
  | rep a m n ih => exact fun s g => matches_lower_rep ih
  | group a ih =>
    intro s g hm
    cases hm with
    | group h => exact .group (ih _ _ h)

theorem matches_of_lower_rep
    (ha : ∀ s g, Matches a (lower s) g → ∃ h, Matches a.ignoreCase s h ∧ h.map lower = g)
    (hm : Matches (.rep a m n) (lower s) g) :
    ∃ h, Matches (.rep a.ignoreCase m n) s h ∧ h.map lower = g := by
  generalize hp : Pattern.rep a m n = p at hm
  generalize ht : lower s = t at hm
  induction hm generalizing m n s with
  | stop =>
    obtain ⟨_,rfl,rfl⟩ := Pattern.rep.inj hp
    obtain rfl := List.map_eq_nil_iff.mp ht
    exact ⟨[],.stop,rfl⟩
  | more h₁ _ _ ih =>
    obtain ⟨rfl,rfl,rfl⟩ := Pattern.rep.inj hp
    obtain ⟨s₁,s₂,rfl,rfl,rfl⟩ := List.map_eq_append_iff.mp ht
    obtain ⟨g₁,hg₁,rfl⟩ := ha _ _ h₁
    obtain ⟨g₂,hg₂,rfl⟩ := ih rfl rfl
    exact ⟨g₁++g₂,hg₁.more hg₂,by simp⟩
  | again h₁ _ _ ih =>
    obtain ⟨rfl,rfl,rfl⟩ := Pattern.rep.inj hp
    obtain ⟨s₁,s₂,rfl,rfl,rfl⟩ := List.map_eq_append_iff.mp ht
    obtain ⟨g₁,hg₁,rfl⟩ := ha _ _ h₁
    obtain ⟨g₂,hg₂,rfl⟩ := ih rfl rfl
    exact ⟨g₁++g₂,hg₁.again hg₂,by simp⟩
  | _ => simp at hp

/-- What matches in lower case matches without regard to case, with the captures as written. -/
theorem matches_of_lower (p : Pattern) :
    ∀ s g, Matches p (lower s) g → ∃ h, Matches p.ignoreCase s h ∧ h.map lower = g := by
  induction p with
  | empty =>
    intro s g hm
    generalize ht : lower s = t at hm
    cases hm
    obtain rfl := List.map_eq_nil_iff.mp ht
    exact ⟨[],.empty,rfl⟩
  | char f =>
    intro s g hm
    obtain ⟨c,hc,ht,rfl⟩ := matches_char.mp hm
    obtain ⟨d,rfl,rfl⟩ := List.map_eq_singleton_iff.mp ht
    exact ⟨[],.char hc,rfl⟩
  | seq a b iha ihb =>
    intro s g hm
    obtain ⟨t₁,t₂,_,_,ht,rfl,h₁,h₂⟩ := matches_seq.mp hm
    obtain ⟨s₁,s₂,rfl,rfl,rfl⟩ := List.map_eq_append_iff.mp ht
    obtain ⟨g₁,hg₁,rfl⟩ := iha _ _ h₁
    obtain ⟨g₂,hg₂,rfl⟩ := ihb _ _ h₂
    exact ⟨g₁++g₂,hg₁.seq hg₂,by simp⟩
  | alt a b iha ihb =>
    intro s g hm
    cases hm with
    | left hm =>
      obtain ⟨h,hh,rfl⟩ := iha _ _ hm
      exact ⟨h,.left hh,rfl⟩
    | right hm =>
      obtain ⟨h,hh,rfl⟩ := ihb _ _ hm
      exact ⟨h,.right hh,rfl⟩
  | rep a m n ih => exact fun s g => matches_of_lower_rep ih
  | group a ih =>
    intro s g hm
    obtain ⟨g,rfl,hg⟩ := matches_group.mp hm
    obtain ⟨h,hh,rfl⟩ := ih _ _ hg
    exact ⟨s::h,.group hh,rfl⟩

end Patterns
