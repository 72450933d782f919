import Mathlib.Data.List.DropRight
import Mathlib.Tactic.Common

/-!
# Ranges of a Redis list

A negative index counts from the end, and a range is clamped to the list. The range from
`-n` to `-1` is the last `n` elements, or all of them where there are fewer. Trimming to
such a range after every push loses nothing that a later trimming keeps.
-/

namespace RedisLists

variable {α β : Type} {l t : List α} {m n : ℕ}

def position (length : ℕ) (i : ℤ) : ℤ := if i < 0 then i+length else i

def lRange (l : List α) (start stop : ℤ) : List α :=
  let first := max 0 (position l.length start)
  (l.drop first.toNat).take (position l.length stop+1-first).toNat

/-- What `LTRIM` keeps is what `LRANGE` returns. -/
def lTrim (l : List α) (start stop : ℤ) : List α := lRange l start stop

theorem lRange_last {limit : ℤ} (h : 1 ≤ limit) (l : List α) :
    lRange l (-limit) (-1) = l.rtake limit.toNat := by
  have hstart : position l.length (-limit) = l.length-limit := by
    rw [position,if_pos (by omega)]
    omega
  have hstop : position l.length (-1) = l.length-1 := by
    rw [position,if_pos (by omega)]
    omega
  have hfirst : (max 0 ((l.length : ℤ)-limit)).toNat = l.length-limit.toNat := by omega
  rw [lRange,List.rtake,hstart,hstop,hfirst]
  refine List.take_of_length_le ?_
  rw [List.length_drop]
  omega

theorem lTrim_last {limit : ℤ} (h : 1 ≤ limit) (l : List α) :
    lTrim l (-limit) (-1) = l.rtake limit.toNat := lRange_last h l

theorem rtake_rtake (l : List α) (m n : ℕ) : (l.rtake m).rtake n = l.rtake (min n m) := by
  simp only [List.rtake_eq_reverse_take_reverse,List.reverse_reverse,List.take_take]

theorem rtake_min_length (l : List α) (n : ℕ) : l.rtake (min n l.length) = l.rtake n := by
  rw [List.rtake,List.rtake]
  congr 1
  omega

theorem map_rtake (f : α → β) (l : List α) (n : ℕ) : (l.rtake n).map f = (l.map f).rtake n := by
  rw [List.rtake,List.rtake,List.map_drop,List.length_map]

/-- What was trimmed away would have been trimmed away later. -/
theorem rtake_append_rtake (l t : List α) (n : ℕ) : (l.rtake n++t).rtake n = (l++t).rtake n := by
  simp only [List.rtake_eq_reverse_take_reverse,List.reverse_append,List.reverse_reverse,List.take_append,
    List.take_take]
  congr 3
  omega

end RedisLists
