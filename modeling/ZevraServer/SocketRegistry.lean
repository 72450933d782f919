import Mathlib.Data.List.Dedup
import Mathlib.Data.List.Induction
import Mathlib.Order.Nat
import Mathlib.Tactic.Common

/-!
# The socket registry

`addSocket`, `refreshSocket` and `removeSocket` of one user: a sorted set of socket ids, scored
by the time of the last heartbeat, under a key that expires. Adding and removing trim the
entries that are too old, and only adding and refreshing postpone the expiry of the key. The
set holds the live sockets up to entries that are too old to count.
-/

namespace ZevraServer.Registry

/-- `RedisTtl.socketStaleMs`. -/
def socketStaleMs : ℕ := 95000

/-- `RedisTtl.socketsSeconds`, in milliseconds. -/
def socketsMs : ℕ := 120*1000

/-- The sorted set under `zevra:sockets:{userId}`, with the time at which the key expires; without
entries there is no key. -/
structure SortedSet where
  entries : List (String × ℕ)
  expiry : Option ℕ
  deriving DecidableEq, Repr

namespace SortedSet

def absent : SortedSet := ⟨[],none⟩

/-- Redis drops the key when its expiry passes. -/
def at' (now : ℕ) (s : SortedSet) : SortedSet := if s.expiry.any (· < now) then absent else s

def zAdd (score : ℕ) (value : String) (s : SortedSet) : SortedSet :=
  { s with entries := s.entries.filter (fun e => e.1 ≠ value)++[(value,score)] }

/-- The key goes with its last entry. -/
def keep (p : String × ℕ → Bool) (s : SortedSet) : SortedSet :=
  let entries := s.entries.filter p
  ⟨entries,if entries.isEmpty then none else s.expiry⟩

def zRem (value : String) : SortedSet → SortedSet := keep fun e => e.1 ≠ value

/-- `ZREMRANGEBYSCORE key -inf now - socketStaleMs`. -/
def zRemStale (now : ℕ) : SortedSet → SortedSet := keep fun e => now < e.2+socketStaleMs

def expire (time : ℕ) (s : SortedSet) : SortedSet :=
  if s.entries.isEmpty then s else { s with expiry := some time }

def zCard (s : SortedSet) : ℕ := s.entries.length

end SortedSet

open SortedSet

inductive Op
  | addSocket (socketId : String)
  | refreshSocket (socketId : String)
  | removeSocket (socketId : String)
  deriving DecidableEq, Repr

def Op.socketId : Op → String
  | .addSocket i => i
  | .refreshSocket i => i
  | .removeSocket i => i

/-- A call at a reading of the clock: the set after its `MULTI`, and the number it returns. -/
def Op.run (now : ℕ) (s : SortedSet) : Op → SortedSet × Option ℕ
  | .addSocket i =>
    let s := (((s.at' now).zRemStale now).zAdd now i).expire (now+socketsMs)
    (s,some s.zCard)
  | .refreshSocket i => (((s.at' now).zAdd now i).expire (now+socketsMs),none)
  | .removeSocket i =>
    let s := ((s.at' now).zRem i).zRemStale now
    (s,some s.zCard)

/-- A sequence of calls, each with its reading of the clock. -/
abbrev History := List (Op × ℕ)

def registry (h : History) : SortedSet := h.foldl (fun s e => (e.1.run e.2 s).1) absent

/-- `addSocket` and `removeSocket` return a number. -/
def Op.counts : Op → Bool
  | .refreshSocket _ => false
  | _ => true

/-! ### The live sockets of a history -/

/-- What a call says about its socket: it was seen at the time of the call, or is removed. -/
def Op.seen (now : ℕ) : Op → Option ℕ
  | .removeSocket _ => none
  | _ => some now

/-- The time of the latest call about a socket, if that was not its removal. -/
def lastSeen (h : History) (i : String) : Option ℕ :=
  (h.reverse.find? fun e => e.1.socketId = i).bind fun e => e.1.seen e.2

def live (h : History) (now : ℕ) (i : String) : Bool := (lastSeen h i).any (now < ·+socketStaleMs)

/-- The number of socket ids whose latest add or refresh was less than 95 s ago and that were not
removed after it. -/
def liveCount (h : History) (now : ℕ) : ℕ :=
  ((h.map (·.1.socketId)).dedup.filter (live h now)).length

theorem lastSeen_append (h : History) (op : Op) (now : ℕ) :
    lastSeen (h++[(op,now)]) = Function.update (lastSeen h) op.socketId (op.seen now) := by
  funext i
  by_cases hi : i = op.socketId
  · subst hi
    simp [lastSeen]
  · simp [lastSeen,hi,Ne.symm hi]

theorem mem_of_lastSeen {h : History} {i : String} {t : ℕ} (hs : lastSeen h i = some t) :
    i ∈ h.map (·.1.socketId) := by
  obtain ⟨e,he,_⟩ := Option.bind_eq_some_iff.mp hs
  have hi : e.1.socketId = i := by simpa using List.find?_some he
  have hmem : e ∈ h := by simpa using List.mem_of_find?_eq_some he
  exact List.mem_map.mpr ⟨e,hmem,hi⟩

/-! ### What the set keeps -/

/-- The set holds the time each socket was last seen, but for entries that are too old. -/
structure Tracks (seen : String → Option ℕ) (now : ℕ) (s : SortedSet) : Prop where
  nodup : (s.entries.map (·.1)).Nodup
  sound : ∀ e ∈ s.entries, seen e.1 = some e.2
  kept : ∀ i t, seen i = some t → (i,t) ∈ s.entries ∨ t+socketStaleMs ≤ now
  past : ∀ e ∈ s.entries, e.2 ≤ now
  expiry : ∀ e ∈ s.entries, ∀ x, s.expiry = some x → e.2+socketsMs ≤ x

namespace Tracks

variable {seen : String → Option ℕ} {now : ℕ} {s : SortedSet}

theorem absent (now : ℕ) : Tracks (fun _ => none) now absent :=
  ⟨by simp [SortedSet.absent],by simp [SortedSet.absent],by simp,by simp [SortedSet.absent],
    by simp [SortedSet.absent]⟩

/-- A key that has expired held no entry that still counts. -/
theorem at' (h : Tracks seen now s) {now' : ℕ} (hle : now ≤ now') : Tracks seen now' (s.at' now') := by
  unfold SortedSet.at'
  split
  · rename_i hexp
    obtain ⟨x,hx,hlt⟩ := (Option.any_eq_true _ _).mp hexp
    have hlt : x < now' := by simpa using hlt
    refine ⟨by simp [SortedSet.absent],by simp [SortedSet.absent],fun i t ht => .inr ?_,
      by simp [SortedSet.absent],by simp [SortedSet.absent]⟩
    rcases h.kept i t ht with hmem | hold
    · have hbound := h.expiry _ hmem x hx
      simp only [socketsMs,socketStaleMs] at hbound ⊢
      omega
    · omega
  · refine ⟨h.nodup,h.sound,fun i t ht => ?_,fun e he => (h.past e he).trans hle,h.expiry⟩
    exact (h.kept i t ht).imp_right fun hold => hold.trans hle

/-- Entries may be dropped that are too old or whose socket is removed. -/
theorem keep (h : Tracks seen now s) {seen' : String → Option ℕ} {p : String × ℕ → Bool}
    (hseen : ∀ e ∈ s.entries, p e = true → seen' e.1 = some e.2)
    (hkept : ∀ i t, seen' i = some t → seen i = some t ∧ (p (i,t) = true ∨ t+socketStaleMs ≤ now)) :
    Tracks seen' now (s.keep p) := by
  refine ⟨h.nodup.sublist (List.filter_sublist.map _),fun e he => ?_,fun i t ht => ?_,fun e he => ?_,
    fun e he x hx => ?_⟩
  · obtain ⟨hmem,hp⟩ := List.mem_filter.mp he
    exact hseen e hmem hp
  · obtain ⟨hold,hp⟩ := hkept i t ht
    rcases hp with hp | hp
    · exact (h.kept i t hold).imp_left fun hmem => List.mem_filter.mpr ⟨hmem,hp⟩
    · exact .inr hp
  · exact h.past e (List.mem_filter.mp he).1
  · refine h.expiry e (List.mem_filter.mp he).1 x ?_
    simp only [SortedSet.keep] at hx
    split at hx
    · simp at hx
    · exact hx

theorem zRemStale (h : Tracks seen now s) : Tracks seen now (s.zRemStale now) :=
  h.keep (fun e he _ => h.sound e he) fun i t ht => ⟨ht,by simp only [decide_eq_true_eq]; omega⟩

theorem zRem (h : Tracks seen now s) (i : String) :
    Tracks (Function.update seen i none) now (s.zRem i) := by
  refine h.keep (fun e he hp => ?_) fun j t ht => ?_
  · have hne : e.1 ≠ i := by simpa using hp
    rw [Function.update_of_ne hne]
    exact h.sound e he
  · by_cases hj : j = i
    · subst hj
      simp at ht
    · rw [Function.update_of_ne hj] at ht
      exact ⟨ht,.inl (by simpa using hj)⟩

theorem zAdd (h : Tracks seen now s) (i : String) :
    Tracks (Function.update seen i (some now)) now ((s.zAdd now i).expire (now+socketsMs)) := by
  have hentries : ((s.zAdd now i).expire (now+socketsMs)).entries =
      s.entries.filter (fun e => e.1 ≠ i)++[(i,now)] := by
    simp [SortedSet.zAdd,SortedSet.expire]
  have hexpiry : ((s.zAdd now i).expire (now+socketsMs)).expiry = some (now+socketsMs) := by
    simp [SortedSet.zAdd,SortedSet.expire]
  have hcases : ∀ e ∈ s.entries.filter (fun e => e.1 ≠ i)++[(i,now)],
      e ∈ s.entries ∧ e.1 ≠ i ∨ e = (i,now) := by
    intro e he
    simpa using he
  refine ⟨?_,fun e he => ?_,fun j t ht => ?_,fun e he => ?_,fun e he x hx => ?_⟩
  · rw [hentries,List.map_append]
    refine List.Nodup.append (h.nodup.sublist (List.filter_sublist.map _)) (by simp) ?_
    intro j hj hj'
    obtain ⟨e,he,rfl⟩ := List.mem_map.mp hj
    have hne : e.1 ≠ i := by simpa using (List.mem_filter.mp he).2
    exact hne (by simpa using hj')
  · rw [hentries] at he
    rcases hcases e he with ⟨he,hne⟩ | rfl
    · rw [Function.update_of_ne hne]
      exact h.sound e he
    · exact Function.update_self ..
  · rw [hentries]
    by_cases hj : j = i
    · subst hj
      rw [Function.update_self] at ht
      obtain rfl := Option.some.inj ht
      exact .inl (by simp)
    · rw [Function.update_of_ne hj] at ht
      exact (h.kept j t ht).imp_left fun hmem => by simp [hmem,hj]
  · rw [hentries] at he
    rcases hcases e he with ⟨he,_⟩ | rfl
    · exact h.past e he
    · exact le_refl now
  · rw [hexpiry] at hx
    obtain rfl := Option.some.inj hx
    rw [hentries] at he
    rcases hcases e he with ⟨he,_⟩ | rfl
    · have hle := h.past e he
      omega
    · exact le_refl _

/-- One call. -/
theorem run (h : Tracks seen now s) {now' : ℕ} (hle : now ≤ now') (op : Op) :
    Tracks (Function.update seen op.socketId (op.seen now')) now' (op.run now' s).1 := by
  cases op with
  | addSocket i => exact (h.at' hle).zRemStale.zAdd i
  | refreshSocket i => exact (h.at' hle).zAdd i
  | removeSocket i => exact ((h.at' hle).zRem i).zRemStale

end Tracks

/-- After every history with a clock that does not go back. -/
theorem registry_tracks (h : History) (hsorted : (h.map (·.2)).Pairwise (· ≤ ·)) {now : ℕ}
    (hnow : ∀ e ∈ h, e.2 ≤ now) : ∃ last ≤ now, (∀ e ∈ h, e.2 ≤ last) ∧ Tracks (lastSeen h) last (registry h) := by
  induction h using List.reverseRecOn generalizing now with
  | nil => exact ⟨0,Nat.zero_le now,by simp,.absent 0⟩
  | append_singleton h e ih =>
    obtain ⟨op,t⟩ := e
    rw [List.map_append,List.pairwise_append] at hsorted
    obtain ⟨hs,_,hle⟩ := hsorted
    have hpast : ∀ e ∈ h, e.2 ≤ t := fun e he => hle e.2 (List.mem_map_of_mem he) t (by simp)
    obtain ⟨last,hlast,_,htracks⟩ := ih hs hpast
    refine ⟨t,hnow (op,t) (by simp),fun e he => ?_,?_⟩
    · rcases List.mem_append.mp he with he | he
      · exact hpast e he
      · obtain rfl := List.mem_singleton.mp he
        exact le_refl t
    · rw [lastSeen_append]
      simp only [registry,List.foldl_append,List.foldl_cons,List.foldl_nil]
      exact htracks.run hlast op

/-- After a call that trims, only entries that count are left. -/
theorem fresh_of_counts {op : Op} (h : op.counts = true) (now : ℕ) (s : SortedSet) :
    (∀ e ∈ (op.run now s).1.entries, now < e.2+socketStaleMs) ∧
      (op.run now s).2 = some (op.run now s).1.zCard := by
  have hstale : ∀ s : SortedSet, ∀ e ∈ (s.zRemStale now).entries, now < e.2+socketStaleMs := by
    intro s e he
    simpa using (List.mem_filter.mp he).2
  cases op with
  | addSocket i =>
    refine ⟨fun e he => ?_,rfl⟩
    have hmem : e ∈ ((s.at' now).zRemStale now).entries.filter (fun e => e.1 ≠ i)++[(i,now)] := by
      simpa [Op.run,SortedSet.zAdd,SortedSet.expire] using he
    rcases List.mem_append.mp hmem with he | he
    · exact hstale _ e (List.mem_filter.mp he).1
    · obtain rfl := List.mem_singleton.mp he
      simp [socketStaleMs]
  | refreshSocket i => simp [Op.counts] at h
  | removeSocket i => exact ⟨hstale _,rfl⟩

/-- The entries left are the live sockets. -/
theorem Tracks.zCard_eq {h : History} {now : ℕ} {s : SortedSet} (ht : Tracks (lastSeen h) now s)
    (hfresh : ∀ e ∈ s.entries, now < e.2+socketStaleMs) : s.zCard = liveCount h now := by
  have hperm : (s.entries.map (·.1)).Perm ((h.map (·.1.socketId)).dedup.filter (live h now)) := by
    rw [List.perm_ext_iff_of_nodup ht.nodup ((List.nodup_dedup _).filter _)]
    intro i
    rw [List.mem_map,List.mem_filter,List.mem_dedup]
    constructor
    · rintro ⟨e,he,rfl⟩
      have hseen := ht.sound e he
      exact ⟨mem_of_lastSeen hseen,by simpa [live,hseen] using hfresh e he⟩
    · rintro ⟨_,hlive⟩
      obtain ⟨t,hseen,hlt⟩ := (Option.any_eq_true _ _).mp hlive
      have hlt : now < t+socketStaleMs := by simpa using hlt
      rcases ht.kept i t hseen with hmem | hold
      · exact ⟨(i,t),hmem,rfl⟩
      · omega
  have hlen := hperm.length_eq
  rw [List.length_map] at hlen
  exact hlen

/-! ### The number returned -/

/-- A call that returns a number returns the number of live sockets. -/
theorem registry_counts_live (h : History) (op : Op) (now : ℕ)
    (hsorted : ((h++[(op,now)]).map (·.2)).Pairwise (· ≤ ·)) :
    (op.run now (registry h)).2 = if op.counts then some (liveCount (h++[(op,now)]) now) else none := by
  cases hc : op.counts with
  | false =>
    cases op with
    | refreshSocket i => rfl
    | _ => simp [Op.counts] at hc
  | true =>
    rw [List.map_append,List.pairwise_append] at hsorted
    obtain ⟨hs,_,hle⟩ := hsorted
    have hpast : ∀ e ∈ h, e.2 ≤ now := fun e he => hle e.2 (List.mem_map_of_mem he) now (by simp)
    obtain ⟨last,hlast,_,htracks⟩ := registry_tracks h hs hpast
    obtain ⟨hfresh,hanswer⟩ := fresh_of_counts hc now (registry h)
    have hnext := htracks.run hlast op
    rw [← lastSeen_append] at hnext
    rw [hanswer,hnext.zCard_eq hfresh]
    rfl

/-- A socket that is refreshed keeps counting while another one has missed its heartbeats. -/
theorem registry_counts_live_stale :
    ((Op.removeSocket "c").run 96000 (registry
      [(.addSocket "a",0),(.addSocket "b",1000),(.refreshSocket "b",90000),(.addSocket "c",91000)])).2 =
      if (Op.removeSocket "c").counts then some (liveCount ([(.addSocket "a",0),(.addSocket "b",1000),
        (.refreshSocket "b",90000),(.addSocket "c",91000)]++[(.removeSocket "c",96000)]) 96000) else none :=
  registry_counts_live _ _ _ (by decide)

example : ((Op.removeSocket "c").run 96000 (registry
    [(.addSocket "a",0),(.addSocket "b",1000),(.refreshSocket "b",90000),(.addSocket "c",91000)])).2 = some 1 := by
  decide +kernel

end ZevraServer.Registry
