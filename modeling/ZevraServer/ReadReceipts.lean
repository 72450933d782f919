import ZevraServer.Watermarks

/-!
# What `markRead` answers

`advanced` is whether the `UPDATE` has changed a row, and it changes a row only to a greater
number. The call carries the flag to its answer, and only a call that carries it inserts into
`message_reads` and emits.
-/

namespace ZevraServer.Reading

open ReadCommitted Interleaving

variable {x : Externals} {p r : ℕ} {ch : Choice} {s s' : Store} {tr : Steps} {a b : Config Store Call}
  {l : Label Call Choice Event}

/-! ### One more step of a trace -/

/-- The step is the `UPDATE` of call `p` and moves a watermark. -/
def Advances (x : Externals) (a : Config Store Call) (l : Label Call Choice Event) (p : ℕ) : Prop :=
  ∃ (b : Config Store Call) (ch : Choice) (u c m i : Uuid) (n : ℕ), l = .run p ch ∧
    (reading x).next a (.run p ch) = some b ∧ a.pool[p]? = some (.markRead (.update u c m i n)) ∧
      Rises a.world.db b.world.db i

theorem advanced_snoc : Advanced x (tr++[(a,l)]) p ↔ Advanced x tr p ∨ Advances x a l p := by
  constructor
  · rintro ⟨a',b,ch,u,c,m,i,n,hmem,hn,hq,hrise⟩
    rcases List.mem_append.mp hmem with hmem | hmem
    · exact .inl ⟨a',b,ch,u,c,m,i,n,hmem,hn,hq,hrise⟩
    · obtain ⟨rfl,rfl⟩ := Prod.mk.inj (List.mem_singleton.mp hmem)
      exact .inr ⟨b,ch,u,c,m,i,n,rfl,hn,hq,hrise⟩
  · rintro (⟨a',b,ch,u,c,m,i,n,hmem,hn,hq,hrise⟩ | ⟨b,ch,u,c,m,i,n,rfl,hn,hq,hrise⟩)
    · exact ⟨a',b,ch,u,c,m,i,n,List.mem_append_left _ hmem,hn,hq,hrise⟩
    · exact ⟨a,b,ch,u,c,m,i,n,by simp,hn,hq,hrise⟩

theorem not_advances_of_ne (h : ∀ ch, l ≠ .run p ch) : ¬ Advances x a l p := by
  rintro ⟨b,ch,u,c,m,i,n,rfl,_⟩
  exact h ch rfl

theorem not_advances_of_state {q : Call} (hq : a.pool[p]? = some q)
    (h : ∀ u c m i n, q ≠ .markRead (.update u c m i n)) : ¬ Advances x a l p := by
  rintro ⟨b,ch,u,c,m,i,n,rfl,_,hq',_⟩
  exact h u c m i n (Option.some.inj (hq.symm.trans hq'))

theorem advances_iff {u c m i : Uuid} {n : ℕ} (hq : a.pool[p]? = some (.markRead (.update u c m i n)))
    (hn : (reading x).next a (.run p ch) = some b) :
    Advances x a (.run p ch) p ↔ Rises a.world.db b.world.db i := by
  constructor
  · rintro ⟨b',ch',u',c',m',i',n',he,hn',hq',hrise⟩
    injection he with _ he
    subst he
    obtain rfl := Option.some.inj (hn.symm.trans hn')
    obtain ⟨rfl,rfl,rfl,rfl,rfl⟩ := MarkRead.update.inj
      (Call.markRead.inj (Option.some.inj (hq.symm.trans hq')))
    exact hrise
  · exact fun hrise => ⟨b,ch,u,c,m,i,n,rfl,hn,hq,hrise⟩

/-! ### What a call knows -/

/-- Call `p` has emitted nothing. -/
def Unsaid (p : ℕ) (s : Store) : Prop := ∀ r ∈ s.receipts, r.call ≠ p

/-- What the answer says. -/
structure Answers (x : Externals) (tr : Steps) (p : ℕ) (s : Store) (u c m : Uuid) (adv : Bool) : Prop where
  flag : adv = true ↔ Advanced x tr p
  emitted : (∃ r ∈ s.receipts, r.call = p) ↔ Advanced x tr p
  receipt : adv = true → ⟨p,u,c,m⟩ ∈ s.receipts
  read : adv = true → (m,u) ∈ s.messageReads

def MarkRead.Knows (x : Externals) (tr : Steps) (p : ℕ) (s : Store) : MarkRead → Prop
  | .select _ _ _ => ¬ Advanced x tr p ∧ Unsaid p s
  | .update _ _ _ _ _ => ¬ Advanced x tr p ∧ Unsaid p s
  | .reset _ _ _ adv => (adv = true ↔ Advanced x tr p) ∧ Unsaid p s
  | .insert _ _ _ => Advanced x tr p ∧ Unsaid p s
  | .emit u _ m => Advanced x tr p ∧ Unsaid p s ∧ (m,u) ∈ s.messageReads
  | .done u c m adv => Answers x tr p s u c m adv
  | .failed _ => True

/-- A step of call `p` adds no receipt of another call and takes nothing away. -/
structure Adds (p : ℕ) (s s' : Store) : Prop where
  kept : ∀ r ∈ s.receipts, r ∈ s'.receipts
  own : ∀ r ∈ s'.receipts, r ∈ s.receipts ∨ r.call = p
  reads : ∀ e ∈ s.messageReads, e ∈ s'.messageReads

theorem Adds.of_eq (hr : s'.receipts = s.receipts) (hm : s'.messageReads = s.messageReads) : Adds p s s' := by
  refine ⟨?_,?_,?_⟩
  · rw [hr]
    exact fun _ h => h
  · rw [hr]
    exact fun _ h => .inl h
  · rw [hm]
    exact fun _ h => h

theorem Adds.unsaid (h : Adds p s s') (hr : r ≠ p) (hu : Unsaid r s) : Unsaid r s' := by
  intro e he
  rcases h.own e he with he | he
  · exact hu e he
  · rw [he]
    exact Ne.symm hr

/-- The steps of other calls do not change what a call knows. -/
theorem MarkRead.Knows.stable {q : MarkRead} (h : q.Knows x tr r s) (hadds : Adds p s s') (hr : r ≠ p)
    (hadv : ¬ Advances x a l r) : q.Knows x (tr++[(a,l)]) r s' := by
  have hiff : Advanced x (tr++[(a,l)]) r ↔ Advanced x tr r := by
    rw [advanced_snoc]
    simp [hadv]
  cases q with
  | select u c m => exact ⟨by rw [hiff]; exact h.1,hadds.unsaid hr h.2⟩
  | update u c m i n => exact ⟨by rw [hiff]; exact h.1,hadds.unsaid hr h.2⟩
  | reset u c m adv => exact ⟨by rw [hiff]; exact h.1,hadds.unsaid hr h.2⟩
  | insert u c m => exact ⟨by rw [hiff]; exact h.1,hadds.unsaid hr h.2⟩
  | emit u c m => exact ⟨by rw [hiff]; exact h.1,hadds.unsaid hr h.2.1,hadds.reads _ h.2.2⟩
  | done u c m adv =>
    refine ⟨by rw [hiff]; exact h.flag,?_,fun ha => hadds.kept _ (h.receipt ha),
      fun ha => hadds.reads _ (h.read ha)⟩
    rw [hiff,← h.emitted]
    constructor
    · rintro ⟨e,he,hcall⟩
      rcases hadds.own e he with he | he
      · exact ⟨e,he,hcall⟩
      · exact absurd (hcall.symm.trans he) hr
    · rintro ⟨e,he,hcall⟩
      exact ⟨e,hadds.kept e he,hcall⟩
  | failed err => trivial

theorem MarkRead.adds {q q' : MarkRead} (hq : q.step p ch s = some (q',s')) : Adds p s s' := by
  cases MarkRead.edge hq with
  | inserted hadd hin => exact ⟨fun _ h => h,fun _ h => .inl h,hadd⟩
  | emitted =>
    refine ⟨fun _ h => List.mem_append_left _ h,fun e he => ?_,fun _ h => h⟩
    rcases List.mem_append.mp he with he | he
    · exact .inl he
    · exact .inr (by rw [List.mem_singleton.mp he])
  | _ => exact .of_eq rfl rfl

theorem Call.adds {q q' : Call} (hq : q.step x p ch s = some (q',s')) : Adds p s s' := by
  cases q with
  | send q =>
    obtain ⟨_,_,he⟩ := Option.map_eq_some_iff.mp hq
    obtain ⟨_,rfl⟩ := Prod.mk.inj he
    exact .of_eq rfl rfl
  | worker q =>
    obtain ⟨_,_,he⟩ := Option.map_eq_some_iff.mp hq
    obtain ⟨_,rfl⟩ := Prod.mk.inj he
    exact .of_eq rfl rfl
  | markRead q =>
    obtain ⟨⟨t,w⟩,ht,he⟩ := Option.map_eq_some_iff.mp hq
    obtain ⟨_,rfl⟩ := Prod.mk.inj he
    exact MarkRead.adds ht

/-! ### The steps of the call itself -/

theorem answers_not_advanced {u c m : Uuid} (h : ¬ Advanced x tr p) (hu : Unsaid p s) :
    Answers x tr p s u c m false := by
  refine ⟨by simp [h],?_,by simp,by simp⟩
  constructor
  · rintro ⟨e,he,hcall⟩
    exact absurd hcall (hu e he)
  · exact fun ha => absurd ha h

theorem MarkRead.knows_emitted {u c m : Uuid} (h : Advanced x tr p) (hread : (m,u) ∈ s.messageReads) :
    Answers x tr p { s with receipts := s.receipts++[⟨p,u,c,m⟩] } u c m true := by
  refine ⟨by simp [h],⟨fun _ => h,fun _ => ⟨⟨p,u,c,m⟩,by simp,rfl⟩⟩,fun _ => by simp,fun _ => hread⟩

/-- A call that did not just update knows what it knew. -/
theorem MarkRead.Knows.step {q q' : MarkRead} (hv : (outline x).Valid a)
    (hp : a.pool[p]? = some (.markRead q)) (hk : q.Knows x tr p a.world)
    (hq : q.step p ch a.world = some (q',s'))
    (hn : (reading x).next a (.run p ch) = some ⟨s',a.pool.set p (.markRead q')⟩) :
    q'.Knows x (tr++[(a,.run p ch)]) p s' := by
  have hstill : (∀ u c m i n, q ≠ .update u c m i n) →
      (Advanced x (tr++[(a,.run p ch)]) p ↔ Advanced x tr p) := by
    intro hne
    rw [advanced_snoc]
    have hno := not_advances_of_state (x := x) (l := .run p ch) hp fun u c m i n he =>
      hne u c m i n (Call.markRead.inj he)
    simp [hno]
  cases MarkRead.edge hq with
  | refused err => trivial
  | behind hr ht => exact ⟨by rw [hstill (by simp)]; exact hk.1,hk.2⟩
  | ahead => exact ⟨by simp [hstill,hk.1],hk.2⟩
  | abort err => trivial
  | updated hu =>
    obtain ⟨_,_,hflag⟩ := advanceRead_spec (x := x) hv.inv.1 hv.inv.2 (hv.holds p _ hp).2 hu
    refine ⟨?_,hk.2⟩
    rw [advanced_snoc,advances_iff hp hn,hflag]
    simp [hk.1]
  | resetting => exact ⟨by rw [hstill (by simp)]; exact hk.1.mp rfl,hk.2⟩
  | resetOnly =>
    have hnot : ¬ Advanced x tr p := fun h => by simpa using hk.1.mpr h
    exact answers_not_advanced (by rwa [hstill (by simp)]) hk.2
  | lost err => trivial
  | inserted hadd hin => exact ⟨by rw [hstill (by simp)]; exact hk.1,hk.2,hin⟩
  | emitted => exact knows_emitted (by rw [hstill (by simp)]; exact hk.1) hk.2.2

/-- What the calls of a configuration know of the steps that led to it. -/
structure Recorded (x : Externals) (tr : Steps) (c : Config Store Call) : Prop where
  valid : (outline x).Valid c
  calls : ∀ (p : ℕ) q, c.pool[p]? = some (.markRead q) → q.Knows x tr p c.world
  fresh : ∀ p, c.pool.length ≤ p → ¬ Advanced x tr p ∧ Unsaid p c.world

theorem Recorded.next (h : Recorded x tr a) (hl : Arrives a l) (hn : (reading x).next a l = some b) :
    Recorded x (tr++[(a,l)]) b := by
  have hvalid := h.valid.next _ hl hn
  cases l with
  | spawn q =>
    have hno : ∀ r, ¬ Advances x a (.spawn q) r := fun r => not_advances_of_ne (by simp)
    have hiff : ∀ r, Advanced x (tr++[(a,.spawn q)]) r ↔ Advanced x tr r := fun r => by
      rw [advanced_snoc]
      simp [hno r]
    obtain rfl := Option.some.inj hn
    refine ⟨hvalid,fun p q' hp => ?_,fun p hp => ?_⟩
    · rcases pool_append hp with ⟨_,hp⟩ | ⟨hlen,rfl⟩
      · exact (h.calls p q' hp).stable (.of_eq (p := p+1) rfl rfl) (by omega) (hno p)
      · cases hl
        have hfresh := h.fresh p hlen
        exact ⟨by rw [hiff]; exact hfresh.1,hfresh.2⟩
    · have hfresh := h.fresh p (by simp only [List.length_append] at hp; omega)
      exact ⟨by rw [hiff]; exact hfresh.1,hfresh.2⟩
  | run p ch =>
    have hno : ∀ r, r ≠ p → ¬ Advances x a (.run p ch) r := fun r hr =>
      not_advances_of_ne fun ch' he => hr (by injection he with he _; exact he.symm)
    obtain ⟨q,q',s',hq,hs,rfl⟩ := (reading x).next_run hn
    have hadds := Call.adds hs
    refine ⟨hvalid,fun r t hr => ?_,fun r hr => ?_⟩
    · rcases pool_set hr with ⟨rfl,rfl⟩ | ⟨hne,hr⟩
      · cases q with
        | markRead q =>
          obtain ⟨⟨t',w⟩,ht,he⟩ := Option.map_eq_some_iff.mp hs
          obtain ⟨hcall,rfl⟩ := Prod.mk.inj he
          obtain rfl := Call.markRead.inj hcall
          exact (h.calls r q hq).step h.valid hq ht hn
        | send q =>
          obtain ⟨_,_,he⟩ := Option.map_eq_some_iff.mp hs
          simp at he
        | worker q =>
          obtain ⟨_,_,he⟩ := Option.map_eq_some_iff.mp hs
          simp at he
      · exact (h.calls r t hr).stable hadds hne (hno r hne)
    · simp only [List.length_set] at hr
      have hlt := (List.getElem?_eq_some_iff.mp hq).1
      have hne : r ≠ p := by omega
      have hfresh := h.fresh r hr
      refine ⟨?_,hadds.unsaid hne hfresh.2⟩
      rw [advanced_snoc]
      simp [hfresh.1,hno r hne]
  | env e =>
    have hno : ∀ r, ¬ Advances x a (.env e) r := fun r => not_advances_of_ne (by simp)
    obtain ⟨s',hs,rfl⟩ := (reading x).next_env hn
    obtain rfl := Option.some.inj hs
    refine ⟨hvalid,fun p q hp => ?_,fun p hp => ?_⟩
    · exact (h.calls p q hp).stable (.of_eq (p := p+1) rfl rfl) (by omega) (hno p)
    · have hfresh := h.fresh p hp
      refine ⟨?_,hfresh.2⟩
      rw [advanced_snoc]
      simp [hfresh.1,hno p]

theorem Starts.recorded (hw : Starts s) {c : Config Store Call}
    (h : Trace (reading x) Arrives ⟨s,[]⟩ tr c) : Recorded x tr c := by
  refine h.invariant ⟨hw.valid (.refl _),by simp,fun p _ => ⟨?_,?_⟩⟩ fun _ _ _ _ ha hl hn => ha.next hl hn
  · rintro ⟨_,_,_,_,_,_,_,_,hmem,_⟩
    simp at hmem
  · intro r hr
    rw [hw.receipts] at hr
    simp at hr

def arrives (_ : Config Store Call) : Label Call Choice Event → Bool
  | .spawn (.send (.check _ _)) => true
  | .spawn (.worker .take) => true
  | .spawn (.markRead (.select _ _ _)) => true
  | .spawn _ => false
  | _ => true

theorem arrives_sound (c : Config Store Call) (l : Label Call Choice Event) (h : arrives c l = true) :
    Arrives c l := by
  unfold arrives at h
  split at h
  · exact .send _ _
  · exact .worker
  · exact .markRead _ _ _
  · simp at h
  · rename_i hspawn
    cases l with
    | spawn q => exact absurd rfl (hspawn q)
    | run p ch => trivial
    | env e => trivial

/-- In every run of `send` and `markRead` calls no watermark moves backwards, every watermark is
null or a message of its channel, and a `markRead` that completes answers `advanced`, has
emitted and has left its row in `message_reads` exactly when its `UPDATE` moved the watermark. -/
theorem watermark_only_advances (x : Externals) {s : Store} (hs : Starts s) {c d : Config Store Call}
    (h : Run (reading x) Arrives ⟨s,[]⟩ c) (h' : Run (reading x) Arrives c d) :
    Onward c.world.db d.world.db ∧ Owned d.world.db ∧
    ∀ tr, Trace (reading x) Arrives ⟨s,[]⟩ tr d → ∀ (p : ℕ) u ch m adv,
      d.pool[p]? = some (.markRead (.done u ch m adv)) → Answers x tr p d.world u ch m adv := by
  refine ⟨onward_run (hs.valid h) h',(hs.valid (h.trans h')).inv.2.owned,fun tr htr p u ch m adv hp => ?_⟩
  exact (hs.recorded htr).calls p _ hp

def smallStore : Store := ⟨smallWorld,[],[]⟩

theorem smallStore_starts : Starts smallStore := by
  refine ⟨rfl,fun _ => rfl,⟨smallWorld_start.integrity,by decide,?_,?_⟩,rfl⟩
  · intro m hm
    simp [smallStore,smallWorld,smallDb] at hm
  · intro r hr i hi
    simp only [smallStore,smallWorld,smallDb,List.mem_cons,List.not_mem_nil,or_false] at hr
    rcases hr with rfl | rfl <;> simp at hi

/-- A `send` up to its commit. -/
def postingAs (p : ℕ) (u id : Uuid) : List (Label Call Choice Event) :=
  .spawn (.send (.check (note u 10 "note") none))::List.replicate 4 (.run p calm)++.run p (drawing [id])::
    List.replicate 3 (.run p calm)

/-- Two devices read the first and the second message; both select before either updates. -/
def twoDevices : List (Label Call Choice Event) :=
  [.spawn (.markRead (.select 2 10 20)),.spawn (.markRead (.select 2 10 21)),.run 2 calm,.run 3 calm]++
    List.replicate 4 (.run 3 calm)++List.replicate 2 (.run 2 calm)

/-- The device that read less answers `advanced: false`. -/
theorem watermark_only_advances_twice : ∃ tr d, Trace (reading plain) Arrives ⟨smallStore,[]⟩ tr d ∧
    Answers plain tr 2 d.world 2 10 20 false ∧ Answers plain tr 3 d.world 2 10 21 true := by
  obtain ⟨d,e,hd,he,hf⟩ := Run.exists_of_exec_twice (S := reading plain) (c := ⟨smallStore,[]⟩)
    arrives_sound (postingAs 0 1 20++postingAs 1 1 21) twoDevices
    (f := fun _ e => (e.pool[2]?,e.pool[3]?))
    (v := (some (.markRead (.done 2 10 20 false)),some (.markRead (.done 2 10 21 true)))) (by decide +kernel)
  obtain ⟨tr,htr⟩ := Trace.of_run (hd.trans he)
  obtain ⟨_,_,hall⟩ := watermark_only_advances plain smallStore_starts hd he
  obtain ⟨hfirst,hsecond⟩ := Prod.mk.inj hf
  exact ⟨tr,e,htr,hall tr htr 2 2 10 20 false hfirst,hall tr htr 3 2 10 21 true hsecond⟩

end ZevraServer.Reading
