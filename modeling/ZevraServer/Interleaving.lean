import Mathlib.Logic.Function.Basic
import Mathlib.Tactic.Common

/-!
# Interleaved calls over a shared world

A system runs any number of calls. A call is the value of its own control state;
one step of a call is atomic and may read and change the shared world. The pool
lists every call ever started, so a call's index is its process number and is
never reused. `Run` is parametrised by the labels that may be taken, and an
`Outline` is a proof outline: an assertion at every control state, stable under
the steps of the other calls.
-/

namespace Interleaving

variable {σ Q χ ε : Type}

/-- One atomic step of a call and one atomic step of the environment. -/
structure System (σ Q χ ε : Type) where
  step : ℕ → Q → χ → σ → Option (Q × σ)
  env : ε → σ → Option σ

structure Config (σ Q : Type) where
  world : σ
  pool : List Q

inductive Label (Q χ ε : Type)
  | spawn (q : Q)
  | run (p : ℕ) (c : χ)
  | env (e : ε)

/-- The call at a position after one call has moved. -/
theorem pool_set {pool : List Q} {p r : ℕ} {q s : Q} (h : (pool.set p q)[r]? = some s) :
    r = p ∧ s = q ∨ r ≠ p ∧ pool[r]? = some s := by
  by_cases he : r = p
  · subst he
    have hlt : r < pool.length := by
      have := (List.getElem?_eq_some_iff.mp h).1
      simpa using this
    rw [List.getElem?_set_self hlt] at h
    exact .inl ⟨rfl,(Option.some.inj h).symm⟩
  · rw [List.getElem?_set_ne (Ne.symm he)] at h
    exact .inr ⟨he,h⟩

/-- The call at a position after one call has arrived. -/
theorem pool_append {pool : List Q} {r : ℕ} {q s : Q} (h : (pool++[q])[r]? = some s) :
    r < pool.length ∧ pool[r]? = some s ∨ pool.length ≤ r ∧ s = q := by
  rw [List.getElem?_append] at h
  split at h
  · rename_i hlt
    exact .inl ⟨hlt,h⟩
  · rename_i hle
    exact .inr ⟨by omega,by simpa using List.mem_of_getElem? h⟩

namespace Config

/-- Some call is in a control state of the given kind. -/
def Any (c : Config σ Q) (P : Q → Prop) : Prop := ∃ (r : ℕ) (q : Q), c.pool[r]? = some q ∧ P q

/-- The same for a call other than `p`. -/
def AnyBeside (c : Config σ Q) (p : ℕ) (P : Q → Prop) : Prop :=
  ∃ (r : ℕ) (q : Q), r ≠ p ∧ c.pool[r]? = some q ∧ P q

variable {c : Config σ Q} {p : ℕ} {q q' : Q} {w : σ} {P : Q → Prop}

theorem AnyBeside.any (h : c.AnyBeside p P) : c.Any P := by
  obtain ⟨r,q,_,hr,hq⟩ := h
  exact ⟨r,q,hr,hq⟩

/-- The other calls stay where they are. -/
theorem AnyBeside.set (h : c.AnyBeside p P) : (Config.mk w (c.pool.set p q')).Any P := by
  obtain ⟨r,q,hne,hr,hq⟩ := h
  exact ⟨r,q,by rw [← hr]; exact List.getElem?_set_ne (Ne.symm hne),hq⟩

theorem Any.of_set (hq : c.pool[p]? = some q) (h : P q') : (Config.mk w (c.pool.set p q')).Any P :=
  ⟨p,q',List.getElem?_set_self (List.getElem?_eq_some_iff.mp hq).1,h⟩

theorem Any.beside (h : c.Any P) (hq : c.pool[p]? = some q) : c.AnyBeside p P ∨ P q := by
  obtain ⟨r,s,hr,hs⟩ := h
  by_cases he : r = p
  · subst he
    obtain rfl := Option.some.inj (hq.symm.trans hr)
    exact .inr hs
  · exact .inl ⟨r,s,he,hr,hs⟩

theorem Any.append (h : c.Any P) : (Config.mk w (c.pool++[q])).Any P := by
  obtain ⟨r,s,hr,hs⟩ := h
  exact ⟨r,s,by rw [List.getElem?_append_left (List.getElem?_eq_some_iff.mp hr).1]; exact hr,hs⟩

theorem Any.of_append (h : (Config.mk w (c.pool++[q])).Any P) (hq : ¬ P q) : c.Any P := by
  obtain ⟨r,s,hr,hs⟩ := h
  rcases pool_append hr with ⟨_,hr⟩ | ⟨_,rfl⟩
  · exact ⟨r,s,hr,hs⟩
  · exact absurd hs hq

end Config

namespace System

variable (S : System σ Q χ ε)

/-- The successor of a configuration under a label, if the label is enabled. -/
def next (c : Config σ Q) : Label Q χ ε → Option (Config σ Q)
  | .spawn q => some ⟨c.world,c.pool++[q]⟩
  | .run p ch =>
    match c.pool[p]? with
    | none => none
    | some q => (S.step p q ch c.world).map fun r => ⟨r.2,c.pool.set p r.1⟩
  | .env e => (S.env e c.world).map fun w => ⟨w,c.pool⟩

/-- Take the labels one after the other, each only where the check admits it. -/
def exec (check : Config σ Q → Label Q χ ε → Bool) (c : Config σ Q) :
    List (Label Q χ ε) → Option (Config σ Q)
  | [] => some c
  | l::ls => if check c l then (S.next c l).bind fun d => exec check d ls else none

theorem next_run {c d : Config σ Q} {p : ℕ} {ch : χ} (h : S.next c (.run p ch) = some d) :
    ∃ q q' w, c.pool[p]? = some q ∧ S.step p q ch c.world = some (q',w) ∧
      d = ⟨w,c.pool.set p q'⟩ := by
  simp only [next] at h
  split at h
  · simp at h
  · rename_i q hq
    obtain ⟨⟨q',w⟩,hs,rfl⟩ := Option.map_eq_some_iff.mp h
    exact ⟨q,q',w,hq,hs,rfl⟩

theorem next_env {c d : Config σ Q} {e : ε} (h : S.next c (.env e) = some d) :
    ∃ w, S.env e c.world = some w ∧ d = ⟨w,c.pool⟩ := by
  obtain ⟨w,hw,rfl⟩ := Option.map_eq_some_iff.mp h
  exact ⟨w,hw,rfl⟩

end System

/-- Runs whose every label is admitted by `ok` in the configuration it is taken in. -/
inductive Run (S : System σ Q χ ε) (ok : Config σ Q → Label Q χ ε → Prop) :
    Config σ Q → Config σ Q → Prop
  | refl (c) : Run S ok c c
  | tail {c d e l} : Run S ok c d → ok d l → S.next d l = some e → Run S ok c e

namespace Run

variable {S : System σ Q χ ε} {ok : Config σ Q → Label Q χ ε → Prop}

theorem trans {a b c : Config σ Q} (hab : Run S ok a b) (hbc : Run S ok b c) : Run S ok a c := by
  induction hbc with
  | refl => exact hab
  | tail _ hok hn ih => exact ih.tail hok hn

theorem mono {ok' : Config σ Q → Label Q χ ε → Prop} (hok : ∀ c l, ok c l → ok' c l)
    {a b : Config σ Q} (h : Run S ok a b) : Run S ok' a b := by
  induction h with
  | refl => exact refl _
  | tail _ hl hn ih => exact ih.tail (hok _ _ hl) hn

/-- The labels may be judged by what every reached configuration satisfies. -/
theorem mono_of_invariant {ok' : Config σ Q → Label Q χ ε → Prop} {I : Config σ Q → Prop}
    (hstep : ∀ c l d, I c → ok c l → S.next c l = some d → I d)
    (hok : ∀ c l, I c → ok c l → ok' c l) {a b : Config σ Q} (h₀ : I a) (h : Run S ok a b) :
    Run S ok' a b ∧ I b := by
  induction h with
  | refl => exact ⟨refl _,h₀⟩
  | tail _ hl hn ih => exact ⟨ih.1.tail (hok _ _ ih.2 hl) hn,hstep _ _ _ ih.2 hl hn⟩

/-- What holds at the start and is kept by every admitted step of a reached
configuration holds in every reached configuration. -/
theorem invariant {I : Config σ Q → Prop} {c d : Config σ Q} (h : Run S ok c d) (h₀ : I c)
    (hstep : ∀ a l b, Run S ok c a → I a → ok a l → S.next a l = some b → I b) : I d := by
  induction h with
  | refl => exact h₀
  | tail hr hl hn ih => exact hstep _ _ _ hr ih hl hn

/-- The pool only grows, so a process number keeps naming the same call. -/
theorem length_le {c d : Config σ Q} (h : Run S ok c d) : c.pool.length ≤ d.pool.length := by
  refine h.invariant (I := fun d => c.pool.length ≤ d.pool.length) (Nat.le_refl _) ?_
  intro a l b _ ha _ hn
  cases l with
  | spawn q =>
    simp only [System.next,Option.some.injEq] at hn
    subst hn
    simp only [List.length_append]
    omega
  | run p ch =>
    obtain ⟨q,q',w,_,_,rfl⟩ := S.next_run hn
    simpa using ha
  | env e =>
    obtain ⟨w,_,rfl⟩ := S.next_env hn
    exact ha

/-- A concrete list of labels is a run, if the check admits only what `ok` admits. -/
theorem of_exec {check : Config σ Q → Label Q χ ε → Bool} (hcheck : ∀ c l, check c l = true → ok c l)
    {c d : Config σ Q} {ls : List (Label Q χ ε)} (h : S.exec check c ls = some d) : Run S ok c d := by
  induction ls generalizing c with
  | nil =>
    obtain rfl := Option.some.inj h
    exact refl _
  | cons l ls ih =>
    simp only [System.exec] at h
    split at h
    · rename_i hl
      obtain ⟨a,ha,hd⟩ := Option.bind_eq_some_iff.mp h
      have hca : Run S ok c a := (refl c).tail (hcheck c l hl) ha
      exact hca.trans (ih hd)
    · simp at h

/-- The same for what can be observed of the last configuration. -/
theorem exists_of_exec {α : Type} {f : Config σ Q → α} {v : α}
    {check : Config σ Q → Label Q χ ε → Bool} (hcheck : ∀ c l, check c l = true → ok c l)
    {c : Config σ Q} (ls : List (Label Q χ ε)) (h : (S.exec check c ls).map f = some v) :
    ∃ d, Run S ok c d ∧ f d = v := by
  obtain ⟨d,hd,hv⟩ := Option.map_eq_some_iff.mp h
  exact ⟨d,of_exec hcheck hd,hv⟩

/-- Two runs, one after the other. -/
theorem exists_of_exec_twice {α : Type} {f : Config σ Q → Config σ Q → α} {v : α}
    {check : Config σ Q → Label Q χ ε → Bool} (hcheck : ∀ c l, check c l = true → ok c l)
    {c : Config σ Q} (ls ls' : List (Label Q χ ε))
    (h : ((S.exec check c ls).bind fun d => (S.exec check d ls').map (f d)) = some v) :
    ∃ d e, Run S ok c d ∧ Run S ok d e ∧ f d e = v := by
  obtain ⟨d,hd,he⟩ := Option.bind_eq_some_iff.mp h
  obtain ⟨e,he,hv⟩ := Option.map_eq_some_iff.mp he
  exact ⟨d,e,of_exec hcheck hd,of_exec hcheck he,hv⟩

/-- Two runs with one chosen step between them. -/
theorem exists_of_exec_step {α : Type} {f : Config σ Q → Config σ Q → α} {v : α}
    {check : Config σ Q → Label Q χ ε → Bool} (hcheck : ∀ c l, check c l = true → ok c l)
    {c : Config σ Q} (ls : List (Label Q χ ε)) (l : Label Q χ ε) (ls' : List (Label Q χ ε))
    (h : ((S.exec check c ls).bind fun d => (S.next d l).bind fun d' =>
      (S.exec check d' ls').map (f d)) = some v) :
    ∃ d d' e, Run S ok c d ∧ S.next d l = some d' ∧ Run S ok d' e ∧ f d e = v := by
  obtain ⟨d,hd,h⟩ := Option.bind_eq_some_iff.mp h
  obtain ⟨d',hd',h⟩ := Option.bind_eq_some_iff.mp h
  obtain ⟨e,he,hv⟩ := Option.map_eq_some_iff.mp h
  exact ⟨d,d',e,of_exec hcheck hd,hd',of_exec hcheck he,hv⟩

end Run

/-- A proof outline. `holds p q w` is the assertion of call `p` at control state `q`;
`idle p w` says that the world holds nothing of process `p` yet. -/
structure Outline (S : System σ Q χ ε) (ok : Config σ Q → Label Q χ ε → Prop) where
  inv : σ → Prop
  rely : ℕ → σ → σ → Prop
  idle : ℕ → σ → Prop
  holds : ℕ → Q → σ → Prop
  spawn : ∀ {c q p}, ok c (.spawn q) → inv c.world → idle p c.world → holds p q c.world
  own : ∀ {c p q ch q' w}, ok c (.run p ch) → inv c.world → holds p q c.world →
    S.step p q ch c.world = some (q',w) →
    inv w ∧ holds p q' w ∧ ∀ r, r ≠ p → rely r c.world w
  env : ∀ {c e w}, ok c (.env e) → inv c.world → S.env e c.world = some w →
    inv w ∧ ∀ r, rely r c.world w
  stable : ∀ {p q w w'}, inv w → inv w' → rely p w w' → holds p q w → holds p q w'
  idle_stable : ∀ {p w w'}, rely p w w' → idle p w → idle p w'

namespace Outline

variable {S : System σ Q χ ε} {ok : Config σ Q → Label Q χ ε → Prop} (O : Outline S ok)

/-- Every assertion of the outline holds at the control state its call is in. -/
structure Valid (c : Config σ Q) : Prop where
  inv : O.inv c.world
  holds : ∀ p q, c.pool[p]? = some q → O.holds p q c.world
  idle : ∀ p, c.pool.length ≤ p → O.idle p c.world

theorem Valid.next {c d : Config σ Q} {l : Label Q χ ε} (hv : O.Valid c) (hl : ok c l)
    (hn : S.next c l = some d) : O.Valid d := by
  cases l with
  | spawn q =>
    simp only [System.next,Option.some.injEq] at hn
    subst hn
    refine ⟨hv.inv,fun p r hr => ?_,fun p hp => hv.idle p ?_⟩
    · rcases pool_append hr with ⟨_,hr⟩ | ⟨hp,rfl⟩
      · exact hv.holds p r hr
      · exact O.spawn (c := c) hl hv.inv (hv.idle p hp)
    · simp only [List.length_append,List.length_singleton] at hp
      omega
  | run p ch =>
    obtain ⟨q,q',w,hq,hs,rfl⟩ := S.next_run hn
    obtain ⟨hi,hh,hrely⟩ := O.own hl hv.inv (hv.holds p q hq) hs
    refine ⟨hi,fun r u hr => ?_,fun r hr => ?_⟩
    · rcases pool_set hr with ⟨rfl,rfl⟩ | ⟨he,hr⟩
      · exact hh
      · exact O.stable hv.inv hi (hrely r he) (hv.holds r u hr)
    · simp only [List.length_set] at hr
      have hlt : p < c.pool.length := (List.getElem?_eq_some_iff.mp hq).1
      exact O.idle_stable (hrely r (by omega)) (hv.idle r hr)
  | env e =>
    obtain ⟨w,hw,rfl⟩ := S.next_env hn
    obtain ⟨hi,hrely⟩ := O.env hl hv.inv hw
    exact ⟨hi,fun r u hr => O.stable hv.inv hi (hrely r) (hv.holds r u hr),
      fun r hr => O.idle_stable (hrely r) (hv.idle r hr)⟩

/-- The outline is sound: from a configuration without calls in which the invariant
holds, every run keeps the invariant and every assertion. -/
theorem sound {w : σ} {d : Config σ Q} (hinv : O.inv w) (hidle : ∀ p, O.idle p w)
    (h : Run S ok ⟨w,[]⟩ d) : O.Valid d := by
  refine h.invariant ⟨hinv,by simp,fun p _ => hidle p⟩ ?_
  intro a l b _ ha hl hn
  exact ha.next O hl hn

end Outline

end Interleaving
