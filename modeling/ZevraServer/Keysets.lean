import Mathlib.Data.List.Infix
import Mathlib.Data.Int.Basic
import Mathlib.Data.List.Range
import Mathlib.Tactic.Common

/-!
# Pages over a numbered log

The entries of a log are numbered from one. A page ends below a cursor or starts above it,
and names the cursor of the page that follows. The log may grow while a reader goes from
page to page.
-/

namespace Keysets

variable {α : Type}

structure Page (α : Type) where
  items : List α
  next : Option ℕ

/-- The entries with numbers below the cursor. -/
def below (cursor : Option ℤ) (log : List α) : List α :=
  match cursor with
  | none => log
  | some c => log.take (c-1).toNat

/-- The entries with numbers above the cursor. -/
def above (cursor : Option ℤ) (log : List α) : List α :=
  match cursor with
  | none => log
  | some c => log.drop c.toNat

/-- The newest entries below the cursor. -/
def older (limit : ℕ) (cursor : Option ℤ) (log : List α) : Page α where
  items := (below cursor log).drop ((below cursor log).length-limit)
  next := if limit < (below cursor log).length then some ((below cursor log).length-limit+1) else none

/-- The oldest entries above the cursor. -/
def newer (limit : ℕ) (cursor : Option ℤ) (log : List α) : Page α where
  items := (above cursor log).take limit
  next := if limit < (above cursor log).length
    then some (log.length-(above cursor log).length+limit) else none

/-- Below a cursor are the entries it exceeds. -/
theorem filter_lt (number : α → ℕ) (c : ℤ) {s : ℕ} {log : List α}
    (h : log.map number = List.range' s log.length) :
    log.filter (fun e => (number e : ℤ) < c) = log.take (c-s).toNat := by
  induction log generalizing s with
  | nil => simp
  | cons e log ih =>
    rw [List.map_cons,List.length_cons,List.range'_succ,List.cons.injEq] at h
    have hrest := ih h.2
    by_cases hlt : (s : ℤ) < c
    · have hk : (c-s).toNat = (c-(s+1 : ℕ)).toNat+1 := by omega
      rw [List.filter_cons_of_pos (by simpa [h.1] using hlt),hrest,hk,List.take_succ_cons]
    · have hk : (c-s).toNat = 0 := by omega
      have hk' : (c-(s+1 : ℕ)).toNat = 0 := by omega
      rw [List.filter_cons_of_neg (by simpa [h.1] using hlt),hrest,hk,hk']
      rfl

theorem filter_gt (number : α → ℕ) (c : ℤ) {s : ℕ} {log : List α}
    (h : log.map number = List.range' (s+1) log.length) :
    log.filter (fun e => c < (number e : ℤ)) = log.drop (c-s).toNat := by
  induction log generalizing s with
  | nil => simp
  | cons e log ih =>
    rw [List.map_cons,List.length_cons,List.range'_succ,List.cons.injEq] at h
    have hrest := ih h.2
    by_cases hlt : c < (s+1 : ℕ)
    · have hk : (c-s).toNat = 0 := by omega
      have hk' : (c-(s+1 : ℕ)).toNat = 0 := by omega
      rw [List.filter_cons_of_pos (by simpa [h.1] using hlt),hrest,hk,hk']
      rfl
    · have hk : (c-s).toNat = (c-(s+1 : ℕ)).toNat+1 := by omega
      rw [List.filter_cons_of_neg (by simpa [h.1] using hlt),hrest,hk,List.drop_succ_cons]

theorem below_eq_filter (number : α → ℕ) (cursor : Option ℤ) {log : List α}
    (h : log.map number = List.range' 1 log.length) :
    below cursor log = log.filter fun e => cursor.all fun c => (number e : ℤ) < c := by
  cases cursor with
  | none => simp [below]
  | some c => exact (filter_lt number c h).symm

theorem above_eq_filter (number : α → ℕ) (cursor : Option ℤ) {log : List α}
    (h : log.map number = List.range' 1 log.length) :
    above cursor log = log.filter fun e => cursor.all fun c => c < (number e : ℤ) := by
  cases cursor with
  | none => simp [above]
  | some c => simpa [above] using (filter_gt number c (s := 0) h).symm

theorem below_map {β : Type} (f : α → β) (cursor : Option ℤ) (log : List α) :
    below cursor (log.map f) = (below cursor log).map f := by
  cases cursor with
  | none => rfl
  | some c => exact List.map_take.symm

theorem above_map {β : Type} (f : α → β) (cursor : Option ℤ) (log : List α) :
    above cursor (log.map f) = (above cursor log).map f := by
  cases cursor with
  | none => rfl
  | some c => exact List.map_drop.symm

def Page.map {β : Type} (f : α → β) (p : Page α) : Page β := ⟨p.items.map f,p.next⟩

theorem older_map {β : Type} (f : α → β) (limit : ℕ) (cursor : Option ℤ) (log : List α) :
    older limit cursor (log.map f) = (older limit cursor log).map f := by
  simp [older,Page.map,below_map]

theorem newer_map {β : Type} (f : α → β) (limit : ℕ) (cursor : Option ℤ) (log : List α) :
    newer limit cursor (log.map f) = (newer limit cursor log).map f := by
  simp [newer,Page.map,above_map]

/-- A page holds entries of the log in their order, as many as were asked for at most. -/
theorem older_window (limit : ℕ) (cursor : Option ℤ) (log : List α) :
    (older limit cursor log).items.Sublist log ∧ (older limit cursor log).items.length ≤ limit := by
  constructor
  · cases cursor with
    | none => exact List.drop_sublist _ _
    | some c => exact (List.drop_sublist _ _).trans (List.take_sublist _ _)
  · simp only [older,List.length_drop]
    omega

theorem newer_window (limit : ℕ) (cursor : Option ℤ) (log : List α) :
    (newer limit cursor log).items.Sublist log ∧ (newer limit cursor log).items.length ≤ limit := by
  constructor
  · cases cursor with
    | none => exact List.take_sublist _ _
    | some c => exact (List.take_sublist _ _).trans (List.drop_sublist _ _)
  · simp only [newer,List.length_take]
    omega

theorem isSome_older_next (limit : ℕ) (cursor : Option ℤ) (log : List α) :
    (older limit cursor log).next.isSome = decide (limit < (below cursor log).length) := by
  by_cases hlt : limit < (below cursor log).length <;> simp [older,hlt]

theorem isSome_newer_next (limit : ℕ) (cursor : Option ℤ) (log : List α) :
    (newer limit cursor log).next.isSome = decide (limit < (above cursor log).length) := by
  by_cases hlt : limit < (above cursor log).length <;> simp [newer,hlt]

/-- The pages of a reader that finds the log in one state after another. -/
def walk (page : Option ℤ → List α → Page α) (cursor : Option ℤ) : List (List α) → List (Page α)
  | [] => []
  | log::logs => page cursor log::match (page cursor log).next with
    | none => []
    | some n => walk page (some n) logs

/-- The last page names no further one. -/
def Ended (pages : List (Page α)) : Prop := ∃ p, pages.getLast? = some p ∧ p.next = none

variable {page : Option ℤ → List α → Page α} {cursor : Option ℤ} {limit n : ℕ} {log last : List α}
  {logs : List (List α)}

theorem walk_last (h : (page cursor log).next = none) :
    walk page cursor (log::logs) = [page cursor log] := by
  rw [walk,h]

theorem walk_next (h : (page cursor log).next = some n) :
    walk page cursor (log::logs) = page cursor log::walk page (some n) logs := by
  rw [walk,h]

theorem ended_last {p : Page α} (h : p.next = none) : Ended [p] := ⟨p,rfl,h⟩

theorem ended_cons_iff {p : Page α} {ps : List (Page α)} (h : 0 < ps.length) :
    Ended (p::ps) ↔ Ended ps := by
  have hlast : (p::ps).getLast? = ps.getLast? := by
    rw [List.getLast?_cons,List.getLast?_eq_some_getLast (List.ne_nil_of_length_pos h)]
    rfl
  simp only [Ended,hlast]

theorem walk_pos (page : Option ℤ → List α → Page α) (cursor : Option ℤ) (log : List α)
    (logs : List (List α)) : 0 < (walk page cursor (log::logs)).length := by
  rw [walk]
  exact Nat.succ_pos _

/-- A log that continues another one. -/
abbrev Growing (logs : List (List α)) : Prop := logs.IsChain (· <+: ·)

theorem Growing.continues (h : Growing (log::logs)) {later : List α} (hl : later ∈ logs) : log <+: later := by
  induction logs generalizing log with
  | nil => simp at hl
  | cons l logs ih =>
    rw [Growing,List.isChain_cons_cons] at h
    rcases List.mem_cons.mp hl with rfl | hl
    · exact h.1
    · exact h.1.trans (ih h.2 hl)

theorem Growing.continues_getElem? (h : Growing (log::logs)) {i : ℕ} {later : List α}
    (hl : (log::logs)[i]? = some later) : log <+: later := by
  cases i with
  | zero =>
    obtain rfl := Option.some.inj hl
    exact List.prefix_refl _
  | succ i => exact h.continues (List.mem_of_getElem? hl)

/-! ### Towards the beginning -/

theorem length_below_le (cursor : Option ℤ) (log : List α) : (below cursor log).length ≤ log.length := by
  cases cursor with
  | none => exact Nat.le_refl _
  | some c => exact (List.length_take_le' _ _)

theorem below_begins (cursor : Option ℤ) (log : List α) : below cursor log <+: log := by
  cases cursor with
  | none => exact List.prefix_refl _
  | some c => exact List.take_prefix _ _

/-- What is left of the entries below a cursor, in the log as it is found later. -/
theorem below_next (cursor : Option ℤ) (h : log <+: last) (hn : n ≤ (below cursor log).length) :
    below (some (n+1 : ℕ)) last = (below cursor log).take n := by
  have hpre := (below_begins cursor log).trans h
  have hcursor : below (some (n+1 : ℕ)) last = last.take n := by
    simp only [below]
    rw [show ((n+1 : ℕ) : ℤ)-1 = n by omega,Int.toNat_natCast]
  rw [hcursor,List.prefix_iff_eq_take.mp hpre,List.take_take,Nat.min_eq_left hn]

/-- A reader going back from a cursor reads what is below it, in as many calls as there are
entries at most. -/
theorem walk_older (hl : 0 < limit) (h : Growing (log::logs))
    (hmany : (below cursor log).length ≤ logs.length) :
    Ended (walk (older limit) cursor (log::logs)) ∧
    (walk (older limit) cursor (log::logs)).reverse.flatMap (·.items) = below cursor log := by
  induction logs generalizing cursor log with
  | nil =>
    have hnil : (below cursor log).length = 0 := by simpa using hmany
    have hnext : (older limit cursor log).next = none := if_neg (by omega)
    rw [walk_last hnext]
    refine ⟨ended_last hnext,?_⟩
    simp [older,hnil]
  | cons next logs ih =>
    rw [Growing,List.isChain_cons_cons] at h
    by_cases hlt : limit < (below cursor log).length
    · have hnext : (older limit cursor log).next = some ((below cursor log).length-limit+1) := if_pos hlt
      have hrest := below_next cursor h.1 (n := (below cursor log).length-limit) (by omega)
      have hlen : (below (some ((below cursor log).length-limit+1 : ℕ)) next).length ≤ logs.length := by
        rw [hrest,List.length_take]
        simp only [List.length_cons] at hmany
        omega
      obtain ⟨hend,hall⟩ := ih h.2 hlen
      rw [walk_next hnext]
      refine ⟨(ended_cons_iff (walk_pos _ _ _ _)).mpr hend,?_⟩
      rw [List.reverse_cons,List.flatMap_append,hall,hrest]
      simp [older]
    · have hnext : (older limit cursor log).next = none := if_neg hlt
      rw [walk_last hnext]
      refine ⟨ended_last hnext,?_⟩
      have hzero : (below cursor log).length-limit = 0 := by omega
      simp [older,hzero]

/-! ### Towards the end -/

theorem above_eq_drop (cursor : Option ℤ) : ∃ k, ∀ log : List α, above cursor log = log.drop k := by
  cases cursor with
  | none => exact ⟨0,fun _ => rfl⟩
  | some c => exact ⟨c.toNat,fun _ => rfl⟩

theorem length_above_le (cursor : Option ℤ) (log : List α) : (above cursor log).length ≤ log.length := by
  obtain ⟨k,hk⟩ := above_eq_drop (α := α) cursor
  rw [hk,List.length_drop]
  omega

theorem above_next (hlt : limit < (above cursor log).length) (last : List α) :
    above (some (log.length-(above cursor log).length+limit : ℕ)) last = (above cursor last).drop limit := by
  obtain ⟨k,hk⟩ := above_eq_drop (α := α) cursor
  rw [hk,List.length_drop] at hlt ⊢
  rw [hk]
  simp only [above,Int.toNat_natCast,List.drop_drop]
  congr 1
  omega

theorem above_begins (cursor : Option ℤ) (h : log <+: last) : above cursor log <+: above cursor last := by
  obtain ⟨k,hk⟩ := above_eq_drop (α := α) cursor
  rw [hk,hk]
  exact List.IsPrefix.drop h k

theorem newer_next (hlt : limit < (above cursor log).length) : (newer limit cursor log).next =
    some (log.length-(above cursor log).length+limit) :=
  if_pos hlt

theorem newer_last (hlt : ¬limit < (above cursor log).length) : (newer limit cursor log).next = none ∧
    (newer limit cursor log).items = above cursor log :=
  ⟨if_neg hlt,List.take_of_length_le (Nat.le_of_not_lt hlt)⟩

/-- A reader going forward to its end has read what is above the cursor in the last state it
found. -/
theorem walk_newer (h : Growing (log::logs)) (hend : Ended (walk (newer limit) cursor (log::logs))) :
    ∃ last, (log::logs)[(walk (newer limit) cursor (log::logs)).length-1]? = some last ∧
      (walk (newer limit) cursor (log::logs)).flatMap (·.items) = above cursor last := by
  induction logs generalizing cursor log with
  | nil =>
    by_cases hlt : limit < (above cursor log).length
    · rw [walk_next (newer_next hlt)] at hend
      obtain ⟨p,hp,hn⟩ := hend
      obtain rfl := Option.some.inj hp
      exact absurd hn (by simp [walk,newer_next hlt])
    · rw [walk_last (newer_last hlt).1]
      exact ⟨log,rfl,by simp [(newer_last hlt).2]⟩
  | cons next logs ih =>
    rw [Growing,List.isChain_cons_cons] at h
    by_cases hlt : limit < (above cursor log).length
    · rw [walk_next (newer_next hlt)] at hend ⊢
      have hpos := walk_pos (newer limit) (some (log.length-(above cursor log).length+limit : ℕ)) next logs
      obtain ⟨last,hlast,hall⟩ := ih h.2 ((ended_cons_iff hpos).mp hend)
      have hlog : log <+: last := h.1.trans (Growing.continues_getElem? h.2 hlast)
      refine ⟨last,?_,?_⟩
      · obtain ⟨m,hm⟩ := Nat.exists_eq_succ_of_ne_zero (Nat.ne_of_gt hpos)
        rw [← hlast,List.length_cons,hm]
        rfl
      · have htake : (above cursor log).take limit = (above cursor last).take limit := by
          obtain ⟨rest,hrest⟩ := above_begins cursor hlog
          rw [← hrest,List.take_append_of_le_length (Nat.le_of_lt hlt)]
        rw [List.flatMap_cons,hall,above_next hlt]
        simp only [newer]
        rw [htake,List.take_append_drop]
    · rw [walk_last (newer_last hlt).1]
      exact ⟨log,rfl,by simp [(newer_last hlt).2]⟩

/-- A log that stops growing is read to its end. -/
theorem walk_newer_ended (hl : 0 < limit) (h : Growing (log::logs))
    (hmany : ∀ l ∈ log::logs, (above cursor l).length ≤ logs.length) :
    Ended (walk (newer limit) cursor (log::logs)) := by
  induction logs generalizing cursor log with
  | nil =>
    have hnil : (above cursor log).length ≤ 0 := hmany log (List.mem_singleton.mpr rfl)
    have hlast : (newer limit cursor log).next = none := (newer_last (by omega)).1
    rw [walk_last hlast]
    exact ended_last hlast
  | cons next logs ih =>
    rw [Growing,List.isChain_cons_cons] at h
    by_cases hlt : limit < (above cursor log).length
    · rw [walk_next (newer_next hlt)]
      refine (ended_cons_iff (walk_pos _ _ _ _)).mpr (ih h.2 fun l hl => ?_)
      have hlen := hmany l (List.mem_cons_of_mem _ hl)
      rw [above_next hlt,List.length_drop]
      rw [List.length_cons] at hlen
      omega
    · rw [walk_last (newer_last hlt).1]
      exact ended_last (newer_last hlt).1

end Keysets
