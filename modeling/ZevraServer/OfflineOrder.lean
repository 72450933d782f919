import ZevraServer.OfflineQueue

/-!
# The order of offline messages

A pending queue is sorted by the time at which the transaction of each `send` started, and
ties by the message id. Its messages come in the order of the channel exactly when these
agree with the sequence numbers.
-/

namespace ZevraServer.Offline

open Interleaving

/-- `popPendingMessages` with no other command between its two. -/
def pop (u : Uuid) (limit : ℕ) (r : Redis) : List MessagePayload × Redis :=
  let raw := zRange (r.pending u) (limit-1)
  if raw.isEmpty then ([],r) else (raw,r.removePending u raw)

/-- What a number of calls return, one after the other. -/
def pops (u : Uuid) (limit : ℕ) : ℕ → Redis → List MessagePayload
  | 0, _ => []
  | n+1, r => (pop u limit r).1++pops u limit n (pop u limit r).2

/-- The queueing side of delivery jobs, one after the other. -/
def deliver (r : Redis) (jobs : List (Choice × MessageDeliveryJob)) : Redis :=
  jobs.foldl (fun r j => r.addPendingMessage j.2.offlineUserIds (pendingScore j.1 j.2.message) j.2.message) r

variable {r : Redis} {u : Uuid} {limit : ℕ} {ch : Choice} {m k : MessagePayload}
  {set : List (ℕ × MessagePayload)} {jobs : List (Choice × MessageDeliveryJob)}

/-- `pop` is the call of the queue. -/
theorem pop_steps (hf : ch.fail = false) (r : Redis) (u : Uuid) (limit : ℕ) :
    (Call.range u limit).step ch r = some (.empty u,r) ∧ pop u limit r = ([],r) ∨
    ∃ n, (Call.range u limit).step ch r = some (.remove u (pop u limit r).1,r) ∧
      (Call.remove u (pop u limit r).1).step ch r = some (.popped u (pop u limit r).1 n,(pop u limit r).2) := by
  by_cases hnil : (zRange (r.pending u) (limit-1)).isEmpty = true
  · exact .inl (by simp [Call.step,pop,hf,hnil])
  · exact .inr ⟨_,by simp [Call.step,pop,hf,hnil],by simp only [Call.step,pop,hf,hnil]; rfl⟩

/-! ### Sorted sets -/

/-- Each member once, by score and then by id. -/
structure ZSet (set : List (ℕ × MessagePayload)) : Prop where
  sorted : set.Pairwise fun a b => Redis.zBefore a b = true
  nodup : (set.map (·.2)).Nodup

theorem zBefore_iff {a b : ℕ × MessagePayload} : Redis.zBefore a b = true ↔
    a.1 < b.1 ∨ a.1 = b.1 ∧ a.2.id ≤ b.2.id := by
  simp only [Redis.zBefore,Bool.or_eq_true,Bool.and_eq_true,decide_eq_true_eq]

theorem zBefore_total (a b : ℕ × MessagePayload) :
    Redis.zBefore a b = true ∨ Redis.zBefore b a = true := by
  rw [zBefore_iff,zBefore_iff]
  rcases Nat.lt_trichotomy a.1 b.1 with hlt | heq | hgt
  · exact .inl (.inl hlt)
  · rcases Nat.le_total a.2.id b.2.id with hid | hid
    · exact .inl (.inr ⟨heq,hid⟩)
    · exact .inr (.inr ⟨heq.symm,hid⟩)
  · exact .inr (.inl hgt)

theorem zBefore_trans {a b c : ℕ × MessagePayload} (hab : Redis.zBefore a b = true)
    (hbc : Redis.zBefore b c = true) : Redis.zBefore a c = true := by
  rw [zBefore_iff] at hab hbc ⊢
  rcases hab with hab | ⟨hab,hid⟩
  · rcases hbc with hbc | ⟨hbc,_⟩
    · exact .inl (hab.trans hbc)
    · exact .inl (hbc ▸ hab)
  · rcases hbc with hbc | ⟨hbc,hid'⟩
    · exact .inl (hab ▸ hbc)
    · exact .inr ⟨hab.trans hbc,Nat.le_trans hid hid'⟩

theorem ZSet.zAdd (h : ZSet set) (x : ℕ × MessagePayload) : ZSet (Redis.zAdd x set) := by
  have htotal : Std.Total fun a b : ℕ × MessagePayload => Redis.zBefore a b = true := ⟨zBefore_total⟩
  have htrans : IsTrans (ℕ × MessagePayload) fun a b => Redis.zBefore a b = true :=
    ⟨fun _ _ _ => zBefore_trans⟩
  refine ⟨(h.sorted.filter _).orderedInsert _ _,?_⟩
  rw [Redis.zAdd,((List.perm_orderedInsert _ x _).map _).nodup_iff,List.map_cons,List.nodup_cons]
  refine ⟨fun hmem => ?_,h.nodup.sublist (List.Sublist.map _ List.filter_sublist)⟩
  obtain ⟨y,hy,he⟩ := List.mem_map.mp hmem
  have hne := (List.mem_filter.mp hy).2
  simp [he] at hne

/-- The messages, filed under their times. -/
structure Stamped (set : List (ℕ × MessagePayload)) : Prop extends ZSet set where
  scored : ∀ x ∈ set, x.1 = x.2.createdAt

theorem Stamped.empty : Stamped [] := ⟨⟨.nil,List.nodup_nil⟩,by simp⟩

theorem Stamped.zAdd (h : Stamped set) (m : MessagePayload) : Stamped (Redis.zAdd (m.createdAt,m) set) :=
  ⟨h.toZSet.zAdd _,fun x hx => (Redis.mem_zAdd hx).elim (fun he => by rw [he]) (h.scored x)⟩

theorem Stamped.mem_zAdd (h : Stamped set) {x : ℕ × MessagePayload} :
    x ∈ Redis.zAdd (m.createdAt,m) set ↔ x = (m.createdAt,m) ∨ x ∈ set := by
  refine ⟨Redis.mem_zAdd,fun hx => (List.mem_orderedInsert _).mpr ?_⟩
  rcases hx with hx | hx
  · exact .inl hx
  · by_cases he : x.2 = m
    · exact .inl (Prod.ext (by rw [h.scored x hx,he]) he)
    · exact .inr (List.mem_filter.mpr ⟨hx,by simpa using he⟩)

/-- The jobs of messages for an offline user; ids and the numbers of a channel tell the messages
apart. -/
structure Jobs (u : Uuid) (jobs : List (Choice × MessageDeliveryJob)) : Prop where
  addressed : ∀ j ∈ jobs, u ∈ j.2.offlineUserIds
  stamped : ∀ j ∈ jobs, 0 < j.2.message.createdAt
  ids : ∀ j ∈ jobs, ∀ k ∈ jobs, j.2.message.id = k.2.message.id → j.2.message = k.2.message
  numbers : ∀ j ∈ jobs, ∀ k ∈ jobs, j.2.message.channelId = k.2.message.channelId →
    j.2.message.sequenceNumber = k.2.message.sequenceNumber → j.2.message = k.2.message

theorem deliver_stamped (ha : ∀ j ∈ jobs, u ∈ j.2.offlineUserIds) (ht : ∀ j ∈ jobs, 0 < j.2.message.createdAt)
    (h : Stamped (r.pending u)) : Stamped ((deliver r jobs).pending u) ∧
      ∀ x, x ∈ (deliver r jobs).pending u ↔
        x ∈ r.pending u ∨ ∃ j ∈ jobs, x = (j.2.message.createdAt,j.2.message) := by
  induction jobs generalizing r with
  | nil => exact ⟨h,by simp [deliver]⟩
  | cons j jobs ih =>
    have hscore : pendingScore j.1 j.2.message = j.2.message.createdAt :=
      if_neg (Nat.ne_of_gt (ht j (List.mem_cons_self ..)))
    have hadd : (r.addPendingMessage j.2.offlineUserIds (pendingScore j.1 j.2.message) j.2.message).pending u =
        Redis.zAdd (j.2.message.createdAt,j.2.message) (r.pending u) := by
      simp only [Redis.addPendingMessage,if_pos (ha j (List.mem_cons_self ..)),hscore]
    obtain ⟨hstamped,hmem⟩ := ih (fun k hk => ha k (List.mem_cons_of_mem _ hk))
      (fun k hk => ht k (List.mem_cons_of_mem _ hk)) (hadd ▸ h.zAdd j.2.message)
    refine ⟨hstamped,fun x => (hmem x).trans ?_⟩
    rw [hadd,h.mem_zAdd,List.exists_mem_cons_iff]
    exact or_assoc.trans (or_left_comm)

/-! ### Batch after batch -/

theorem zRange_batches (set : List (ℕ × MessagePayload)) (limit : ℕ) : ∃ n, (set ≠ [] → 0 < n) ∧
    zRange set (limit-1) = (set.take n).map (·.2) := by
  refine ⟨_,fun hne => ?_,rfl⟩
  have hpos := List.length_pos_of_ne_nil hne
  split_ifs <;> omega

/-- Removing the first members leaves the others. -/
theorem removePending_take (h : ((r.pending u).map (·.2)).Nodup) (n : ℕ) :
    (r.removePending u (((r.pending u).take n).map (·.2))).pending u = (r.pending u).drop n := by
  simp only [Redis.removePending,Function.update_self]
  have hparts := List.take_append_drop n (r.pending u)
  rw [← hparts,List.map_append,List.nodup_append] at h
  conv_lhs =>
    rw [← hparts,List.filter_append]
  have hfirst : ((r.pending u).take n).filter (fun x => x.2 ∉ ((r.pending u).take n).map (·.2)) = [] := by
    refine List.filter_eq_nil_iff.mpr fun x hx => ?_
    have hmem : x.2 ∈ ((r.pending u).take n).map (·.2) := List.mem_map_of_mem hx
    simpa only [decide_eq_true_eq,not_not] using hmem
  have hrest : ((r.pending u).drop n).filter (fun x => x.2 ∉ ((r.pending u).take n).map (·.2)) =
      (r.pending u).drop n := by
    refine List.filter_eq_self.mpr fun x hx => decide_eq_true fun hmem => ?_
    exact h.2.2 x.2 hmem x.2 (List.mem_map_of_mem hx) rfl
  rw [List.take_append_drop,hfirst,hrest,List.nil_append]

/-- As many calls as there are messages return all of them, in the order of the set. -/
theorem pops_all (h : ((r.pending u).map (·.2)).Nodup) {calls : ℕ} (hcalls : (r.pending u).length ≤ calls) :
    pops u limit calls r = (r.pending u).map (·.2) := by
  induction calls generalizing r with
  | zero =>
    have hnil := List.length_eq_zero_iff.mp (Nat.le_zero.mp hcalls)
    simp [pops,hnil]
  | succ calls ih =>
    obtain ⟨n,hn,hraw⟩ := zRange_batches (r.pending u) limit
    rw [pops]
    by_cases hnil : r.pending u = []
    · have hzero : zRange (r.pending u) (limit-1) = [] := by rw [hraw]; simp [hnil]
      have hempty : pop u limit r = ([],r) := by
        simp only [pop,hzero]
        rfl
      rw [hempty,ih h (by simp [hnil])]
      rfl
    · have hpop : pop u limit r = (((r.pending u).take n).map (·.2),
          r.removePending u (((r.pending u).take n).map (·.2))) := by
        have hne : (((r.pending u).take n).map (·.2)).isEmpty = false := by
          have hpos := hn hnil
          simpa [List.take_eq_nil_iff,hnil] using Nat.ne_of_gt hpos
        simp only [pop,hraw]
        exact if_neg (by rw [hne]; decide)
      have hrest := removePending_take h n
      rw [hpop]
      simp only
      rw [ih (by rw [hrest,List.map_drop]; exact h.sublist (List.drop_sublist _ _))
        (by
          have hpos := hn hnil
          have hlen := List.length_pos_of_ne_nil hnil
          rw [hrest,List.length_drop]
          omega),hrest,← List.map_append,List.take_append_drop]

/-! ### The order of a list -/

/-- What its elements must satisfy for a list in one order to be in another order too. -/
theorem pairwise_iff_of_pairwise {α : Type} {R S : α → α → Prop} {l : List α} (hl : l.Pairwise R)
    (hR : ∀ a b, R a b → ¬R b a) (hS : ∀ a b, S a b → ¬S b a)
    (htotal : ∀ a ∈ l, ∀ b ∈ l, a ≠ b → S a b ∨ S b a) :
    l.Pairwise S ↔ ∀ a ∈ l, ∀ b ∈ l, S a b → R a b := by
  constructor
  · intro hpair a ha b hb hab
    obtain ⟨i,hi,rfl⟩ := List.getElem_of_mem ha
    obtain ⟨j,hj,rfl⟩ := List.getElem_of_mem hb
    rcases Nat.lt_trichotomy i j with hlt | rfl | hgt
    · exact List.pairwise_iff_getElem.mp hl i j hi hj hlt
    · exact absurd hab (hS _ _ hab)
    · exact absurd hab (hS _ _ (List.pairwise_iff_getElem.mp hpair j i hj hi hgt))
  · intro hall
    refine hl.imp_of_mem fun {a b} ha hb hab => ?_
    have hne : a ≠ b := by
      rintro rfl
      exact hR _ _ hab hab
    exact (htotal a ha b hb hne).resolve_right fun hba => hR _ _ hab (hall b hb a ha hba)

/-- Stored by an earlier transaction, or by one of the same time with a smaller id. -/
def Earlier (m k : MessagePayload) : Prop :=
  m.createdAt < k.createdAt ∨ m.createdAt = k.createdAt ∧ m.id < k.id

instance (m k : MessagePayload) : Decidable (Earlier m k) := inferInstanceAs (Decidable (_ ∨ _))

theorem Earlier.asymm (h : Earlier m k) : ¬Earlier k m := by
  rintro (h' | ⟨he,h'⟩)
  · rcases h with h | ⟨he,_⟩
    · exact Nat.lt_asymm h h'
    · exact Nat.lt_irrefl _ (he ▸ h')
  · rcases h with h | ⟨_,h⟩
    · exact Nat.lt_irrefl _ (he ▸ h)
    · exact Nat.lt_asymm h h'

theorem Stamped.earlier (h : Stamped set)
    (hids : ∀ x ∈ set, ∀ y ∈ set, x.2.id = y.2.id → x.2 = y.2) : (set.map (·.2)).Pairwise Earlier := by
  have hne : set.Pairwise fun x y => x.2 ≠ y.2 := List.pairwise_map.mp h.nodup
  refine List.pairwise_map.mpr ((h.sorted.and hne).imp_of_mem fun {x y} hx hy hxy => ?_)
  rcases zBefore_iff.mp hxy.1 with hlt | ⟨heq,hle⟩
  · rw [h.scored x hx,h.scored y hy] at hlt
    exact .inl hlt
  · rw [h.scored x hx,h.scored y hy] at heq
    exact .inr ⟨heq,Nat.lt_of_le_of_ne hle fun he => hxy.2 (hids x hx y hy he)⟩

/-- The messages of a channel come back in its order exactly when a message with a smaller
number was created earlier, or at the same time with a smaller id. -/
theorem offline_order (h : Jobs u jobs) (hr : r.pending u = []) (c : Uuid) (limit : ℕ) {calls : ℕ}
    (hcalls : jobs.length ≤ calls) :
    (∀ m, m ∈ pops u limit calls (deliver r jobs) ↔ ∃ j ∈ jobs, j.2.message = m) ∧
    ((((pops u limit calls (deliver r jobs)).filter (·.channelId = c)).map (·.sequenceNumber)).Pairwise
        (· < ·) ↔
      ∀ j ∈ jobs, ∀ k ∈ jobs, j.2.message.channelId = c → k.2.message.channelId = c →
        j.2.message.sequenceNumber < k.2.message.sequenceNumber → Earlier j.2.message k.2.message) := by
  obtain ⟨hstamped,hmem⟩ := deliver_stamped h.addressed h.stamped (hr ▸ Stamped.empty)
  set set := (deliver r jobs).pending u with hset
  have hin : ∀ m, m ∈ set.map (·.2) ↔ ∃ j ∈ jobs, j.2.message = m := by
    intro m
    rw [List.mem_map]
    constructor
    · rintro ⟨x,hx,rfl⟩
      obtain ⟨j,hj,rfl⟩ := ((hmem x).mp hx).resolve_left (by simp [hr])
      exact ⟨j,hj,rfl⟩
    · rintro ⟨j,hj,rfl⟩
      exact ⟨_,(hmem _).mpr (.inr ⟨j,hj,rfl⟩),rfl⟩
  have hlen : set.length ≤ jobs.length := by
    have hsub : set.map (·.2) ⊆ jobs.map (·.2.message) := fun m hm => by
      obtain ⟨j,hj,rfl⟩ := (hin m).mp hm
      exact List.mem_map_of_mem hj
    simpa using (hstamped.nodup.subperm hsub).length_le
  have hall : pops u limit calls (deliver r jobs) = set.map (·.2) :=
    pops_all hstamped.nodup (hlen.trans hcalls)
  rw [hall]
  refine ⟨hin,?_⟩
  have hids : ∀ x ∈ set, ∀ y ∈ set, x.2.id = y.2.id → x.2 = y.2 := fun x hx y hy he => by
    obtain ⟨j,hj,hjx⟩ := (hin x.2).mp (List.mem_map_of_mem hx)
    obtain ⟨k,hk,hky⟩ := (hin y.2).mp (List.mem_map_of_mem hy)
    rw [← hjx,← hky] at he ⊢
    exact h.ids j hj k hk he
  rw [List.pairwise_map,pairwise_iff_of_pairwise ((hstamped.earlier hids).filter _)
    (fun _ _ => Earlier.asymm) fun _ _ => Nat.lt_asymm]
  · constructor
    · intro hall j hj k hk hjc hkc hlt
      exact hall _ (List.mem_filter.mpr ⟨(hin _).mpr ⟨j,hj,rfl⟩,by simpa using hjc⟩) _
        (List.mem_filter.mpr ⟨(hin _).mpr ⟨k,hk,rfl⟩,by simpa using hkc⟩) hlt
    · intro hall m hm k hk hlt
      obtain ⟨hm,hmc⟩ := List.mem_filter.mp hm
      obtain ⟨hk,hkc⟩ := List.mem_filter.mp hk
      obtain ⟨i,hi,rfl⟩ := (hin m).mp hm
      obtain ⟨j,hj,rfl⟩ := (hin k).mp hk
      exact hall i hi j hj (by simpa using hmc) (by simpa using hkc) hlt
  · intro m hm k hk hne
    obtain ⟨hm,hmc⟩ := List.mem_filter.mp hm
    obtain ⟨hk,hkc⟩ := List.mem_filter.mp hk
    obtain ⟨i,hi,rfl⟩ := (hin m).mp hm
    obtain ⟨j,hj,rfl⟩ := (hin k).mp hk
    have hchannel : i.2.message.channelId = j.2.message.channelId := by
      rw [of_decide_eq_true hmc,of_decide_eq_true hkc]
    rcases Nat.lt_trichotomy i.2.message.sequenceNumber j.2.message.sequenceNumber with hlt | heq | hgt
    · exact .inl hlt
    · exact absurd (h.numbers i hi j hj hchannel heq) hne
    · exact .inr hgt

/-- The job of a message that cannot reach its recipient. -/
def away (m : MessagePayload) : Choice × MessageDeliveryJob := (calm,⟨m,[2],[2]⟩)

/-- Two messages of the same millisecond. -/
theorem offline_order_tie :
    (((pops 2 100 2 (deliver nobody [away (posted 1 51 "ada" 2 "ho"),away (posted 1 50 "ada" 1 "hi")])).filter
      (·.channelId = 10)).map (·.sequenceNumber)).Pairwise (· < ·) :=
  (offline_order (r := nobody) (u := 2)
    ⟨by decide,by decide,by decide,by decide⟩ rfl 10 100 (Nat.le_refl 2)).2.mpr (by decide)

/-- The same, a millisecond later. -/
def later : Choice := { calm with now := 6 }

/-- The rest of a `send` whose transaction has begun, drawing message id `id`. -/
def finishing (p id n : ℕ) : List ZevraServer.Action :=
  steps p 2++.run p (drawing [id])::steps p 3++.run p otherSide::steps p n

/-- A transaction begins, and another one that began after it takes the channel's lock first. -/
def overtaken : List ZevraServer.Action :=
  [.spawn (.send (.check (note 1 10 "ho") none)),.run 0 calm,.run 0 calm,
    .spawn (.send (.check (note 1 10 "hi") none)),.run 1 calm,.run 1 later]++finishing 1 51 6++
    finishing 0 50 4++delivering 2++delivering 3++.spawn (.getPending (.range 2))::steps 4 2

/-- The second message of the channel comes before the first. -/
theorem offline_order_inverted :
    ∃ d, Reach plain Arrives smallWorld d ∧
      (d.world.pg.db.messagesOf 10).map (fun r => (r.id,r.sequenceNumber,r.createdAt)) =
        [(51,1,6),(50,2,5)] ∧
      d.world.popped.map (fun x => (x.1,x.2.id)) = [(2,50),(2,51)] ∧
      ¬(d.world.popped.map (·.2.sequenceNumber)).Pairwise (· < ·) := by
  obtain ⟨d,hd,hf⟩ := Run.exists_of_exec (S := server plain) (c := ⟨smallWorld,[]⟩) arrives_sound overtaken
    (f := fun d => ((d.world.pg.db.messagesOf 10).map fun r => (r.id,r.sequenceNumber,r.createdAt),
      d.world.popped.map fun x => (x.1,x.2.id),d.world.popped.map (·.2.sequenceNumber)))
    (v := ([(51,1,6),(50,2,5)],[(2,50),(2,51)],[2,1])) (by decide +kernel)
  simp only [Prod.mk.injEq] at hf
  obtain ⟨hrows,hids,hnumbers⟩ := hf
  refine ⟨d,hd,hrows,hids,?_⟩
  rw [hnumbers]
  decide

end ZevraServer.Offline
