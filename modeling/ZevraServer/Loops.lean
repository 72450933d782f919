import Mathlib.Tactic.Common
import Mathlib.Data.Nat.Init

/-!
# Loops that leave with a value

A pass of a loop goes on with a new state or leaves with a value. `run` makes a bounded
number of passes; a loop that leaves gives the same value for every larger bound. Passes
that keep an invariant and lower a variant lead out of the loop, and the value has what
the last pass guarantees.
-/

namespace Loops

/-- What a pass leads to. -/
inductive Pass (σ α : Type)
  | next (s : σ)
  | leave (a : α)

variable {σ α : Type} {pass : σ → Pass σ α} {s t : σ} {a b : α} {m n : ℕ}

def run (pass : σ → Pass σ α) : (fuel : ℕ) → σ → Option α
  | 0, _ => none
  | fuel+1, s =>
    match pass s with
    | .next t => run pass fuel t
    | .leave a => some a

/-- The loop leaves within so many passes. -/
def Leaves (pass : σ → Pass σ α) (s : σ) (passes : ℕ) (a : α) : Prop :=
  ∀ fuel, passes ≤ fuel → run pass fuel s = some a

namespace Leaves

theorem leave (h : pass s = .leave a) : Leaves pass s 1 a := by
  intro fuel hfuel
  cases fuel with
  | zero => omega
  | succ fuel => rw [run,h]

theorem next (h : pass s = .next t) (ht : Leaves pass t n a) : Leaves pass s (n+1) a := by
  intro fuel hfuel
  cases fuel with
  | zero => omega
  | succ fuel =>
    rw [run,h]
    exact ht fuel (by omega)

theorem mono (h : Leaves pass s m a) (hmn : m ≤ n) : Leaves pass s n a :=
  fun fuel hfuel => h fuel (Nat.le_trans hmn hfuel)

theorem unique (ha : Leaves pass s m a) (hb : Leaves pass s n b) : a = b := by
  have hrun := ha (m+n) (by omega)
  rw [hb (m+n) (by omega)] at hrun
  exact (Option.some.inj hrun).symm

end Leaves

/-- A pass keeps the invariant and lowers the variant, or leaves as promised. -/
def Sound (pass : σ → Pass σ α) (inv : σ → Prop) (variant : σ → ℕ) (post : α → Prop) (s : σ) : Prop :=
  match pass s with
  | .next t => inv t ∧ variant t < variant s
  | .leave a => post a

/-- Total correctness. -/
theorem leaves_of_variant {inv : σ → Prop} {variant : σ → ℕ} {post : α → Prop}
    (hpass : ∀ s, inv s → Sound pass inv variant post s) (hs : inv s) :
    ∃ a, Leaves pass s (variant s+1) a ∧ post a := by
  induction hv : variant s using Nat.strongRecOn generalizing s with
  | ind v ih =>
    subst hv
    have hsound := hpass s hs
    cases h : pass s with
    | leave a =>
      simp only [Sound,h] at hsound
      exact ⟨a,(Leaves.leave h).mono (by omega),hsound⟩
    | next t =>
      simp only [Sound,h] at hsound
      obtain ⟨a,ha,hpost⟩ := ih (variant t) hsound.2 hsound.1 rfl
      exact ⟨a,(Leaves.next h ha).mono (by omega),hpost⟩

end Loops
