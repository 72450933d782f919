import ZevraServer.Interleaving
import Mathlib.Algebra.BigOperators.Group.List.Basic
import Mathlib.Algebra.GroupWithZero.Nat

/-!
# Rules about the pool

What holds of every call of a run, and sums over the pool: what the world holds together
with what the calls hold stays below what the world and the calls were granted, when no
step takes more than it is granted.
-/

namespace Interleaving

variable {σ Q χ ε : Type}

namespace Config

def total (c : Config σ Q) (f : Q → ℕ) : ℕ := (c.pool.map f).sum

variable {c : Config σ Q} {p r : ℕ} {q q' s : Q} {w : σ} {f g : Q → ℕ}

theorem total_set (hq : c.pool[p]? = some q) :
    (Config.mk w (c.pool.set p q')).total f+f q = c.total f+f q' := by
  have hlist : ∀ (l : List Q) (p : ℕ), l[p]? = some q →
      ((l.set p q').map f).sum+f q = (l.map f).sum+f q' := by
    intro l
    induction l with
    | nil => simp
    | cons a l ih =>
      intro p hp
      cases p with
      | zero =>
        obtain rfl : a = q := by simpa using hp
        simp only [List.set_cons_zero,List.map_cons,List.sum_cons]
        omega
      | succ p =>
        have hrest := ih p (by simpa using hp)
        simp only [List.set_cons_succ,List.map_cons,List.sum_cons]
        omega
  exact hlist c.pool p hq

theorem total_append : (Config.mk w (c.pool++[q])).total f = c.total f+f q := by
  simp [total]

theorem total_mono (h : ∀ q, f q ≤ g q) : c.total f ≤ c.total g := by
  have hlist : ∀ l : List Q, (l.map f).sum ≤ (l.map g).sum := by
    intro l
    induction l with
    | nil => simp
    | cons a l ih =>
      have ha := h a
      simp only [List.map_cons,List.sum_cons]
      omega
  exact hlist c.pool

theorem le_sum_map {l : List Q} {r : ℕ} (hr : l[r]? = some s) : f s ≤ (l.map f).sum := by
  induction l generalizing r with
  | nil => simp at hr
  | cons a l ih =>
    simp only [List.map_cons,List.sum_cons]
    cases r with
    | zero =>
      obtain rfl : a = s := by simpa using hr
      omega
    | succ r =>
      have hrest := ih (r := r) (by simpa using hr)
      omega

/-- Two calls hold what they hold together. -/
theorem add_le_total (hne : p ≠ r) (hp : c.pool[p]? = some q) (hr : c.pool[r]? = some s) :
    f q+f s ≤ c.total f := by
  have hlist : ∀ (l : List Q) (p r : ℕ), p ≠ r → l[p]? = some q → l[r]? = some s →
      f q+f s ≤ (l.map f).sum := by
    intro l
    induction l with
    | nil => simp
    | cons a l ih =>
      intro p r hne hp hr
      simp only [List.map_cons,List.sum_cons]
      cases p with
      | zero =>
        obtain rfl : a = q := by simpa using hp
        cases r with
        | zero => exact absurd rfl hne
        | succ r =>
          have hrest := le_sum_map (f := f) (l := l) (r := r) (by simpa using hr)
          omega
      | succ p =>
        cases r with
        | zero =>
          obtain rfl : a = s := by simpa using hr
          have hrest := le_sum_map (f := f) (l := l) (r := p) (by simpa using hp)
          omega
        | succ r =>
          have hrest := ih p r (by omega) (by simpa using hp) (by simpa using hr)
          omega
  exact hlist c.pool p r hne hp hr

end Config

/-- What is held stays below what was granted: `m` and `f` measure what the world and a
call hold, `k` and `g` what they were granted. -/
theorem Run.balance {S : System σ Q χ ε} {ok : Config σ Q → Label Q χ ε → Prop} {m k : σ → ℕ}
    {f g : Q → ℕ} {c d : Config σ Q} (h : Run S ok c d)
    (h₀ : m c.world+c.total f ≤ k c.world+c.total g)
    (hspawn : ∀ c q, ok c (.spawn q) → f q ≤ g q)
    (hstep : ∀ c p q ch q' w, ok c (.run p ch) → c.pool[p]? = some q →
      S.step p q ch c.world = some (q',w) →
      m w+f q'+(k c.world+g q) ≤ m c.world+f q+(k w+g q'))
    (henv : ∀ c e w, ok c (.env e) → S.env e c.world = some w →
      m w+k c.world ≤ m c.world+k w) :
    m d.world+d.total f ≤ k d.world+d.total g := by
  refine h.invariant (I := fun d => m d.world+d.total f ≤ k d.world+d.total g) h₀ ?_
  intro a l b _ ha hl hn
  cases l with
  | spawn q =>
    simp only [System.next,Option.some.injEq] at hn
    subst hn
    have hq := hspawn a q hl
    rw [Config.total_append,Config.total_append]
    show m a.world+_ ≤ k a.world+_
    omega
  | run p ch =>
    obtain ⟨q,q',w,hq,hs,rfl⟩ := S.next_run hn
    have hbound := hstep a p q ch q' w hl hq hs
    have hf : (Config.mk w (a.pool.set p q')).total f+f q = a.total f+f q' := Config.total_set hq
    have hg : (Config.mk w (a.pool.set p q')).total g+g q = a.total g+g q' := Config.total_set hq
    show m w+_ ≤ k w+_
    omega
  | env e =>
    obtain ⟨w,hw,rfl⟩ := S.next_env hn
    have hbound := henv a e w hl hw
    show m w+a.total f ≤ k w+a.total g
    omega

/-- What holds of a call when it arrives, is carried along by its own steps and is kept by
every step of the system holds of every call. -/
theorem Run.each {S : System σ Q χ ε} {ok : Config σ Q → Label Q χ ε → Prop}
    {I : Config σ Q → ℕ → Q → Prop} {c d : Config σ Q} (h : Run S ok c d)
    (h₀ : ∀ p q, c.pool[p]? = some q → I c p q)
    (hspawn : ∀ a q, Run S ok c a → ok a (.spawn q) → I ⟨a.world,a.pool++[q]⟩ a.pool.length q)
    (hown : ∀ a p q ch q' w, Run S ok c a → ok a (.run p ch) → a.pool[p]? = some q → I a p q →
      S.step p q ch a.world = some (q',w) → I ⟨w,a.pool.set p q'⟩ p q')
    (hkeep : ∀ a l b p q, Run S ok c a → ok a l → S.next a l = some b → I a p q → I b p q) :
    ∀ p q, d.pool[p]? = some q → I d p q := by
  refine h.invariant (I := fun d => ∀ p q, d.pool[p]? = some q → I d p q) h₀ ?_
  intro a l b hr ha hl hn r s hs
  cases l with
  | spawn q =>
    have hkeep' := hkeep a (.spawn q) b r s hr hl hn
    simp only [System.next,Option.some.injEq] at hn
    subst hn
    rcases pool_append hs with ⟨_,hold⟩ | ⟨hle,rfl⟩
    · exact hkeep' (ha r s hold)
    · have hlt := (List.getElem?_eq_some_iff.mp hs).1
      simp only [List.length_append,List.length_singleton] at hlt
      obtain rfl : r = a.pool.length := by omega
      exact hspawn a s hr hl
  | run p ch =>
    have hkeep' := hkeep a (.run p ch) b r s hr hl hn
    obtain ⟨q,q',w,hq,hstep,rfl⟩ := S.next_run hn
    rcases pool_set hs with ⟨rfl,rfl⟩ | ⟨_,hold⟩
    · exact hown a r q ch s w hr hl hq (ha r q hq) hstep
    · exact hkeep' (ha r s hold)
  | env e =>
    have hkeep' := hkeep a (.env e) b r s hr hl hn
    obtain ⟨w,_,rfl⟩ := S.next_env hn
    exact hkeep' (ha r s hs)

/-- A call without a next step stays where it is. -/
theorem Run.stays {S : System σ Q χ ε} {ok : Config σ Q → Label Q χ ε → Prop} {c d : Config σ Q}
    {p : ℕ} {q : Q} (h : Run S ok c d) (hq : c.pool[p]? = some q) (hlast : ∀ ch w, S.step p q ch w = none) :
    d.pool[p]? = some q := by
  refine h.invariant (I := fun d => d.pool[p]? = some q) hq ?_
  intro a l b _ ha _ hn
  cases l with
  | spawn s =>
    simp only [System.next,Option.some.injEq] at hn
    subst hn
    rw [List.getElem?_append_left (List.getElem?_eq_some_iff.mp ha).1]
    exact ha
  | run r ch =>
    obtain ⟨s,s',w,hs,hstep,rfl⟩ := S.next_run hn
    have hne : r ≠ p := by
      rintro rfl
      obtain rfl := Option.some.inj (ha.symm.trans hs)
      rw [hlast] at hstep
      exact absurd hstep (by simp)
    rw [List.getElem?_set_ne hne]
    exact ha
  | env e =>
    obtain ⟨w,_,rfl⟩ := S.next_env hn
    exact ha

/-- Something held at a moment between two configurations of a run. -/
def Earlier (S : System σ Q χ ε) (ok : Config σ Q → Label Q χ ε → Prop) (c d : Config σ Q)
    (P : Config σ Q → Prop) : Prop :=
  ∃ a, Run S ok c a ∧ Run S ok a d ∧ P a

section

variable {S : System σ Q χ ε} {ok : Config σ Q → Label Q χ ε → Prop} {c d e : Config σ Q}
  {l : Label Q χ ε} {P : Config σ Q → Prop}

theorem Earlier.next (h : Earlier S ok c d P) (hl : ok d l) (hn : S.next d l = some e) :
    Earlier S ok c e P := by
  obtain ⟨a,ha,hd,hP⟩ := h
  exact ⟨a,ha,hd.tail hl hn,hP⟩

theorem Earlier.of_next (h : Run S ok c d) (hl : ok d l) (hn : S.next d l = some e) (hP : P d) :
    Earlier S ok c e P :=
  ⟨d,h,(Run.refl d).tail hl hn,hP⟩

end

/-- A run with the steps it took: each label with the configuration it was taken in. -/
inductive Trace (S : System σ Q χ ε) (ok : Config σ Q → Label Q χ ε → Prop) (c : Config σ Q) :
    List (Config σ Q × Label Q χ ε) → Config σ Q → Prop
  | nil : Trace S ok c [] c
  | snoc {tr d l e} : Trace S ok c tr d → ok d l → S.next d l = some e → Trace S ok c (tr++[(d,l)]) e

namespace Trace

variable {S : System σ Q χ ε} {ok : Config σ Q → Label Q χ ε → Prop} {c d : Config σ Q}
  {tr : List (Config σ Q × Label Q χ ε)}

theorem run (h : Trace S ok c tr d) : Run S ok c d := by
  induction h with
  | nil => exact .refl c
  | snoc _ hl hn ih => exact ih.tail hl hn

theorem of_run (h : Run S ok c d) : ∃ tr, Trace S ok c tr d := by
  induction h with
  | refl => exact ⟨[],.nil⟩
  | tail _ hl hn ih =>
    obtain ⟨tr,htr⟩ := ih
    exact ⟨_,htr.snoc hl hn⟩

/-- What holds at the start and is kept by every step of the trace holds at its end. -/
theorem invariant {I : List (Config σ Q × Label Q χ ε) → Config σ Q → Prop} (h : Trace S ok c tr d)
    (h₀ : I [] c) (hstep : ∀ tr a l b, I tr a → ok a l → S.next a l = some b → I (tr++[(a,l)]) b) :
    I tr d := by
  induction h with
  | nil => exact h₀
  | snoc _ hl hn ih => exact hstep _ _ _ _ ih hl hn

end Trace

/-- A call takes its steps one after the other, all with the same choice, until none is left. -/
inductive Completes (S : System σ Q χ ε) (p : ℕ) (ch : χ) : Q → σ → Q → σ → Prop
  | stop {q w} : S.step p q ch w = none → Completes S p ch q w q w
  | step {q q₁ q₂ w w₁ w₂} : S.step p q ch w = some (q₁,w₁) → Completes S p ch q₁ w₁ q₂ w₂ →
      Completes S p ch q w q₂ w₂

/-- What a call does alone is a run in every pool. -/
theorem Completes.run {S : System σ Q χ ε} {ok : Config σ Q → Label Q χ ε → Prop} {p : ℕ} {ch : χ}
    {q q' : Q} {w w' : σ} (h : Completes S p ch q w q' w') (hok : ∀ c, ok c (.run p ch)) {pool : List Q}
    (hq : pool[p]? = some q) : Run S ok ⟨w,pool⟩ ⟨w',pool.set p q'⟩ := by
  induction h generalizing pool with
  | stop =>
    obtain ⟨hlt,rfl⟩ := List.getElem?_eq_some_iff.mp hq
    rw [List.set_getElem_self hlt]
    exact .refl _
  | step hs _ ih =>
    rename_i q q₁ q₂ w w₁ w₂ _
    have hlt := (List.getElem?_eq_some_iff.mp hq).1
    have hn : S.next ⟨w,pool⟩ (.run p ch) = some ⟨w₁,pool.set p q₁⟩ := by
      simp [System.next,hq,hs]
    have hrest := ih (List.getElem?_set_self hlt)
    rw [List.set_set] at hrest
    exact ((Run.refl _).tail (hok _) hn).trans hrest

end Interleaving
