import Mathlib.Algebra.Group.Nat.Defs
import Mathlib.Data.List.Sort
import Mathlib.Data.List.Dedup
import Mathlib.Data.String.Defs

/-!
# Object literals

A JavaScript object literal keeps its own properties in the order of their creation and
inherits the members of its prototype: looking a name up finds an own property first, then an
inherited member, and is undefined otherwise. `Object.values` lists the array indices first, in
ascending order, and the other names in the order of their creation.
-/

namespace PlainObjects

variable {V : Type}

/-- The own properties. -/
abbrev Object (V : Type) := List (String × V)

/-- What a property lookup finds. -/
inductive Lookup (V : Type)
  | own (v : V)
  | inherited (name : String)
  | undefined
  deriving DecidableEq, Repr

def get (prototype : List String) (o : Object V) (k : String) : Lookup V :=
  match o.find? fun e => e.1 = k with
  | some e => .own e.2
  | none => if k ∈ prototype then .inherited k else .undefined

/-- Assign an own property. -/
def set (o : Object V) (k : String) (v : V) : Object V :=
  if o.any fun e => e.1 = k then o.map fun e => if e.1 = k then (k,v) else e
  else o++[(k,v)]

/-- The number of an array index, which is written without leading zeros. -/
def index? (k : String) : Option ℕ :=
  let n := k.toList.foldl (fun n c => 10*n+(c.toNat-48)) 0
  if k.toList ≠ [] ∧ k.toList.all Char.isDigit ∧ (k.toList.head? = some '0' → k.toList.length = 1) ∧
    n < 2^32-1 then some n else none

def entries (o : Object V) : Object V :=
  ((o.filter fun e => (index? e.1).isSome).insertionSort
    fun a b => (index? a.1).getD 0 ≤ (index? b.1).getD 0)++o.filter fun e => !(index? e.1).isSome

/-- `Object.values`. -/
def values (o : Object V) : List V := (entries o).map (·.2)

theorem entries_perm (o : Object V) : (entries o).Perm o :=
  ((List.perm_insertionSort _ _).append_right _).trans (List.filter_append_perm _ o)

theorem values_perm (o : Object V) : (values o).Perm (o.map (·.2)) := (entries_perm o).map _

variable {prototype : List String} {o : Object V} {k : String} {v : V}

theorem get_own (h : get prototype o k = .own v) : (k,v) ∈ o := by
  unfold get at h
  split at h
  · rename_i e he
    obtain rfl := Lookup.own.inj h
    have hk : e.1 = k := by simpa using List.find?_some he
    rw [← hk]
    exact List.mem_of_find?_eq_some he
  · split at h <;> simp at h

theorem get_not_own (h : ∀ v, get prototype o k ≠ .own v) : ∀ e ∈ o, e.1 ≠ k := by
  intro e he hk
  unfold get at h
  split at h
  · exact h _ rfl
  · rename_i hnone
    simpa [hk] using List.find?_eq_none.mp hnone e he

theorem get_inherited_iff : (∃ n, get prototype o k = .inherited n) ↔ k ∈ prototype ∧ ∀ e ∈ o, e.1 ≠ k := by
  constructor
  · rintro ⟨n,h⟩
    have hno : ∀ v, get prototype o k ≠ .own v := fun v => by simp [h]
    refine ⟨?_,get_not_own hno⟩
    unfold get at h
    split at h
    · simp at h
    · split at h
      · assumption
      · simp at h
  · rintro ⟨hk,hno⟩
    have hnone : o.find? (fun e => decide (e.1 = k)) = none := by
      rw [List.find?_eq_none]
      intro e he
      simpa using hno e he
    exact ⟨k,by simp [get,hnone,hk]⟩

theorem set_of_mem (h : (k,v) ∈ o) (v' : V) :
    set o k v' = o.map fun e => if e.1 = k then (k,v') else e := by
  have hany : (o.any fun e => decide (e.1 = k)) = true := List.any_eq_true.mpr ⟨(k,v),h,by simp⟩
  simp [set,hany]

theorem set_of_not_mem (h : ∀ e ∈ o, e.1 ≠ k) (v' : V) : set o k v' = o++[(k,v')] := by
  have hany : (o.any fun e => decide (e.1 = k)) = false := by
    rw [List.any_eq_false]
    intro e he
    simpa using h e he
  simp [set,hany]

/-- A new value leaves the names as they are. -/
theorem keys_replace (o : Object V) (k : String) (v : V) :
    (o.map fun e => if e.1 = k then (k,v) else e).map (·.1) = o.map (·.1) := by
  rw [List.map_map]
  refine List.map_congr_left fun e _ => ?_
  show (if e.1 = k then (k,v) else e).1 = e.1
  split_ifs with h
  · exact h.symm
  · rfl

/-- The names after an assignment. -/
theorem mem_keys_set (o : Object V) (k : String) (v : V) (n : String) :
    n ∈ (set o k v).map (·.1) ↔ n ∈ o.map (·.1) ∨ n = k := by
  by_cases h : ∃ w, (k,w) ∈ o
  · obtain ⟨w,hw⟩ := h
    have hk : k ∈ o.map (·.1) := List.mem_map_of_mem hw
    rw [set_of_mem hw,keys_replace]
    exact ⟨.inl,fun h => h.elim id fun he => he ▸ hk⟩
  · have hno : ∀ e ∈ o, e.1 ≠ k := fun e he hk => h ⟨e.2,by rw [← hk]; exact he⟩
    rw [set_of_not_mem hno]
    simp

theorem nodup_keys_set (h : (o.map (·.1)).Nodup) (k : String) (v : V) : ((set o k v).map (·.1)).Nodup := by
  by_cases hk : ∃ w, (k,w) ∈ o
  · obtain ⟨w,hw⟩ := hk
    rw [set_of_mem hw,keys_replace]
    exact h
  · have hno : ∀ e ∈ o, e.1 ≠ k := fun e he hk' => hk ⟨e.2,by rw [← hk']; exact he⟩
    rw [set_of_not_mem hno,List.map_append]
    refine List.Nodup.append h (by simp) ?_
    intro n hn hn'
    obtain ⟨e,he,rfl⟩ := List.mem_map.mp hn
    exact hno e he (by simpa using hn')

/-- The entries after an assignment. -/
theorem mem_set {e : String × V} : e ∈ set o k v ↔ e = (k,v) ∨ e.1 ≠ k ∧ e ∈ o := by
  by_cases h : ∃ w, (k,w) ∈ o
  · obtain ⟨w,hw⟩ := h
    rw [set_of_mem hw,List.mem_map]
    constructor
    · rintro ⟨a,ha,rfl⟩
      by_cases hk : a.1 = k
      · simp [hk]
      · simp [hk,ha]
    · rintro (rfl | ⟨hk,he⟩)
      · exact ⟨(k,w),hw,by simp⟩
      · exact ⟨e,he,by simp [hk]⟩
  · have hno : ∀ e ∈ o, e.1 ≠ k := fun e he hk => h ⟨e.2,by rw [← hk]; exact he⟩
    rw [set_of_not_mem hno,List.mem_append,List.mem_singleton]
    constructor
    · rintro (he | rfl)
      · exact .inr ⟨hno e he,he⟩
      · exact .inl rfl
    · rintro (rfl | ⟨_,he⟩)
      · exact .inr rfl
      · exact .inl he

end PlainObjects
