import Mathlib.Data.List.Induction
import Mathlib.Order.Nat
import Mathlib.Tactic.Common

/-!
# Fixed-window rate limits

`RateLimitService.checkRateLimit` and `RedisRateLimiter.hit` run the same script on a counter
that expires: the first hit sets the expiry, and so does a hit that finds a counter without
one. A window is a counter from its first hit to its expiry. Redis answers, and the clock of
the program and that of Redis read the same integer millisecond during a call.
-/

namespace ZevraServer.RateLimits

/-- The value under a key, and the time at which it expires. -/
structure Counter where
  count : ℕ
  expiry : Option ℕ
  deriving DecidableEq, Repr

abbrev Key := Option Counter

/-- A key is absent at times greater than its expiry. -/
def Key.at' (now : ℕ) (k : Key) : Key := k.filter fun c => !c.expiry.any (· < now)

/-- `PTTL`: the time to the expiry, or -1 without one. -/
def pttl (now : ℕ) (c : Counter) : ℤ :=
  match c.expiry with
  | none => -1
  | some e => (e : ℤ)-now

/-- `FIXED_WINDOW_SCRIPT` and `FIXED_WINDOW_LUA`: the counter after the script and the time to
live it returns. -/
def fixedWindow (windowMs now : ℕ) (k : Key) : Counter × ℤ :=
  let c : Counter :=
    match k.at' now with
    | none => ⟨1,none⟩
    | some c => { c with count := c.count+1 }
  let ttl := pttl now c
  if c.count = 1 ∨ ttl < 0 then ({ c with expiry := some (now+windowMs) },windowMs) else (c,ttl)

structure RateLimitConfig where
  windowMs : ℕ
  maxRequests : ℕ
  deriving DecidableEq, Repr

structure RateLimitResult where
  allowed : Bool
  remaining : ℕ
  resetMs : ℕ
  deriving DecidableEq, Repr

/-- `checkRateLimit`, with the key after it. -/
def checkRateLimit (config : RateLimitConfig) (now : ℕ) (k : Key) : Key × RateLimitResult :=
  let r := fixedWindow config.windowMs now k
  (some r.1,⟨r.1.count ≤ config.maxRequests,config.maxRequests-r.1.count,now+(max 0 r.2).toNat⟩)

/-- The result of `RedisRateLimiter.hit`; `resetMs` is a duration here. -/
structure HitResult where
  allowed : Bool
  count : ℕ
  limit : ℕ
  resetMs : ℕ
  deriving DecidableEq, Repr

def increment (now windowMs : ℕ) (k : Key) : Key × ℕ × ℕ :=
  let r := fixedWindow (max 1 windowMs) now k
  (some r.1,r.1.count,(max 0 r.2).toNat)

def hit (limit windowMs now : ℕ) (k : Key) : Key × HitResult :=
  let r := increment now windowMs k
  (r.1,⟨r.2.1 ≤ limit,r.2.1,limit,r.2.2⟩)

/-! ### Sequences of calls -/

/-- What a caller learns: whether the call is allowed, and the time of the reset. -/
structure Answer where
  allowed : Bool
  resetAt : ℕ
  deriving DecidableEq, Repr

/-- A call on one key at a time. -/
abbrev Limiter := ℕ → Key → Key × Answer

def viaService (config : RateLimitConfig) : Limiter := fun now k =>
  let r := checkRateLimit config now k
  (r.1,⟨r.2.allowed,r.2.resetMs⟩)

def viaLimiter (limit windowMs : ℕ) : Limiter := fun now k =>
  let r := hit limit windowMs now k
  (r.1,⟨r.2.allowed,now+r.2.resetMs⟩)

/-- The key after calls at the given times. -/
def after (call : Limiter) (k : Key) (times : List ℕ) : Key := times.foldl (fun k t => (call t k).1) k

def answers (call : Limiter) (k : Key) : List ℕ → List Answer
  | [] => []
  | t::times => (call t k).2::answers call (call t k).1 times

/-- The number of allowed calls. -/
def allowed (as : List Answer) : ℕ := as.countP (·.allowed)

/-- The number of allowed calls in the half-open interval of length `length` from `start`. -/
def allowedWithin (start length : ℕ) (times : List ℕ) (as : List Answer) : ℕ :=
  (times.zip as).countP fun e => start ≤ e.1 && e.1 < start+length && e.2.allowed

/-- An absent key, or a counter that has lost its expiry. -/
def Lost : Key → Prop
  | none => True
  | some c => c.expiry = none

/-- What the limiter guarantees for a sequence of calls. -/
structure Guarantees (call : Limiter) (windowMs maxRequests : ℕ) (times : List ℕ) : Prop where
  /-- After each call the key has an expiry at most `windowMs` ahead. -/
  expires : ∀ k, Lost k → ∀ pre t post, times = pre++t::post →
    ∃ c e, after call k (pre++[t]) = some c ∧ c.expiry = some e ∧ t ≤ e ∧ e ≤ t+windowMs
  /-- From an absent key an interval as long as a window has at most twice the requests. -/
  sliding : ∀ start, allowedWithin start windowMs times (answers call none times) ≤ 2*maxRequests
  /-- From an absent key a window that is opened by a first hit allows its first requests. -/
  window : ∀ pre t post, times = pre++t::post → (∃ e, after call none (pre++[t]) = some ⟨1,e⟩) →
    let hits := (t::post).takeWhile (· ≤ t+windowMs)
    allowed ((answers call (after call none pre) (t::post)).take hits.length) = min hits.length maxRequests
  /-- The first call after the reset time of a refused call is allowed. -/
  reset : ∀ k, Lost k → ∀ pre t mid t' post, times = pre++t::(mid++t'::post) →
    (call t (after call k pre)).2.allowed = false →
    (∀ u ∈ mid, u ≤ (call t (after call k pre)).2.resetAt) →
    (call t (after call k pre)).2.resetAt < t' → (call t' (after call k (pre++t::mid))).2.allowed = true

/-! ### The script -/

section Script

variable {windowMs now n e : ℕ}

theorem fixedWindow_absent {k : Key} (h : k.at' now = none) :
    fixedWindow windowMs now k = (⟨1,some (now+windowMs)⟩,(windowMs : ℤ)) := by
  simp [fixedWindow,h]

theorem at'_expired (h : e < now) : Key.at' now (some ⟨n,some e⟩) = none := by
  simp [Key.at',h]

/-- A hit within the window. -/
theorem fixedWindow_running (h : now ≤ e) :
    fixedWindow windowMs now (some ⟨n+1,some e⟩) = (⟨n+1+1,some e⟩,(e : ℤ)-now) := by
  have hlive : Key.at' now (some ⟨n+1,some e⟩) = some ⟨n+1,some e⟩ := by
    simp [Key.at',h]
  have hcount : ¬ (n+1+1 = 1 ∨ (e : ℤ)-now < 0) := by omega
  simp only [fixedWindow,hlive,pttl,if_neg hcount]

/-- A hit on a counter without expiry. -/
theorem fixedWindow_lost :
    fixedWindow windowMs now (some ⟨n,none⟩) = (⟨n+1,some (now+windowMs)⟩,(windowMs : ℤ)) := by
  have hlive : Key.at' now (some ⟨n,none⟩) = some ⟨n,none⟩ := by
    simp [Key.at']
  simp [fixedWindow,hlive,pttl]

/-- A count of one means that the window begins. -/
theorem fixedWindow_first {k : Key} (h : (fixedWindow windowMs now k).1.count = 1) :
    (fixedWindow windowMs now k).1 = ⟨1,some (now+windowMs)⟩ := by
  cases hk : k.at' now with
  | none => rw [fixedWindow_absent hk]
  | some c =>
    by_cases hfirst : c.count+1 = 1 ∨ pttl now { c with count := c.count+1 } < 0
    · simp only [fixedWindow,hk,if_pos hfirst] at h ⊢
      simpa using h
    · simp only [fixedWindow,hk,if_neg hfirst] at h
      exact absurd (.inl h) hfirst

end Script

/-! ### Windows -/

section Windows

variable {windowMs maxRequests : ℕ}

theorem viaService_absent {t : ℕ} {k : Key} (h : k.at' t = none) :
    viaService ⟨windowMs,maxRequests⟩ t k =
      (some ⟨1,some (t+windowMs)⟩,⟨decide (1 ≤ maxRequests),t+windowMs⟩) := by
  simp [viaService,checkRateLimit,fixedWindow_absent h]

theorem viaService_lost {t n : ℕ} :
    viaService ⟨windowMs,maxRequests⟩ t (some ⟨n,none⟩) =
      (some ⟨n+1,some (t+windowMs)⟩,⟨decide (n+1 ≤ maxRequests),t+windowMs⟩) := by
  simp [viaService,checkRateLimit,fixedWindow_lost]

theorem viaService_running {t n e : ℕ} (h : t ≤ e) :
    viaService ⟨windowMs,maxRequests⟩ t (some ⟨n+1,some e⟩) =
      (some ⟨n+1+1,some e⟩,⟨decide (n+1+1 ≤ maxRequests),e⟩) := by
  have hreset : t+(max 0 ((e : ℤ)-t)).toNat = e := by omega
  simp [viaService,checkRateLimit,fixedWindow_running h,hreset]

/-- What a call leaves behind: a counter with an expiry ahead, which the caller is told. -/
structure Opened (windowMs t : ℕ) (r : Key × Answer) : Prop where
  running : ∃ n e, r.1 = some ⟨n+1,some e⟩ ∧ t ≤ e ∧ e ≤ t+windowMs ∧ r.2.resetAt = e

theorem opened_lost {k : Key} (hk : Lost k) (t : ℕ) :
    Opened windowMs t (viaService ⟨windowMs,maxRequests⟩ t k) := by
  cases k with
  | none =>
    rw [viaService_absent rfl]
    exact ⟨0,_,rfl,by omega,le_refl _,rfl⟩
  | some c =>
    obtain ⟨n,x⟩ := c
    obtain rfl : x = none := hk
    rw [viaService_lost]
    exact ⟨n,_,rfl,by omega,le_refl _,rfl⟩

theorem opened_running {t last n e : ℕ} (hlast : last ≤ t) (he : e ≤ last+windowMs) :
    Opened windowMs t (viaService ⟨windowMs,maxRequests⟩ t (some ⟨n+1,some e⟩)) := by
  by_cases h : t ≤ e
  · rw [viaService_running h]
    exact ⟨n+1,e,rfl,h,by omega,rfl⟩
  · rw [viaService_absent (at'_expired (by omega))]
    exact ⟨0,_,rfl,by omega,le_refl _,rfl⟩

theorem after_append (call : Limiter) (k : Key) (ts us : List ℕ) :
    after call k (ts++us) = after call (after call k ts) us := by
  simp [after]

/-- Every call of a sequence leaves such a counter. -/
theorem opened {k : Key} (hk : Lost k) {pre : List ℕ} {t : ℕ} (hsorted : (pre++[t]).Pairwise (· ≤ ·)) :
    Opened windowMs t (viaService ⟨windowMs,maxRequests⟩ t
      (after (viaService ⟨windowMs,maxRequests⟩) k pre)) := by
  induction pre using List.reverseRecOn generalizing t with
  | nil => exact opened_lost hk t
  | append_singleton pre last ih =>
    rw [List.pairwise_append] at hsorted
    obtain ⟨hs,_,hle⟩ := hsorted
    obtain ⟨n,e,hafter,_,he,_⟩ := ih hs
    have hlast : last ≤ t := hle last (by simp) t (by simp)
    have hkey : after (viaService ⟨windowMs,maxRequests⟩) k (pre++[last]) = some ⟨n+1,some e⟩ := by
      rw [after_append]
      exact hafter
    rw [hkey]
    exact opened_running hlast he

/-- Calls within a window count up. -/
theorem after_running {n e : ℕ} {ts : List ℕ} (h : ∀ t ∈ ts, t ≤ e) :
    after (viaService ⟨windowMs,maxRequests⟩) (some ⟨n+1,some e⟩) ts = some ⟨n+1+ts.length,some e⟩ := by
  induction ts generalizing n with
  | nil => rfl
  | cons t ts ih =>
    have hstep : after (viaService ⟨windowMs,maxRequests⟩) (some ⟨n+1,some e⟩) (t::ts) =
        after (viaService ⟨windowMs,maxRequests⟩) (some ⟨n+1+1,some e⟩) ts := by
      simp only [after,List.foldl_cons,viaService_running (h t (by simp))]
    rw [hstep,ih fun u hu => h u (by simp [hu])]
    simp only [List.length_cons,Option.some.injEq,Counter.mk.injEq,and_true]
    omega

theorem answers_cons (call : Limiter) (k : Key) (t : ℕ) (ts : List ℕ) :
    answers call k (t::ts) = (call t k).2::answers call (call t k).1 ts := rfl

/-- The rest of a window allows what the first hits have left. -/
theorem allowed_running {n e : ℕ} (ts : List ℕ) :
    allowed ((answers (viaService ⟨windowMs,maxRequests⟩) (some ⟨n+1,some e⟩) ts).take
      (ts.takeWhile (· ≤ e)).length) = min (ts.takeWhile (· ≤ e)).length (maxRequests-(n+1)) := by
  induction ts generalizing n with
  | nil => simp [answers,allowed]
  | cons t ts ih =>
    by_cases h : t ≤ e
    · have hrest := ih (n := n+1)
      simp only [allowed] at hrest
      simp only [List.takeWhile_cons,h,decide_true,if_true,List.length_cons,answers_cons,
        viaService_running h,List.take_succ_cons,allowed,List.countP_cons,hrest,decide_eq_true_eq]
      split <;> omega
    · simp [h,allowed]

/-! ### Sliding intervals -/

section Sliding

variable (start : ℕ)

/-- The allowed calls of a sequence within the interval. -/
def within (windowMs maxRequests start : ℕ) (k : Key) (ts : List ℕ) : ℕ :=
  allowedWithin start windowMs ts (answers (viaService ⟨windowMs,maxRequests⟩) k ts)

theorem within_cons (k : Key) (t : ℕ) (ts : List ℕ) :
    within windowMs maxRequests start k (t::ts) =
      within windowMs maxRequests start (viaService ⟨windowMs,maxRequests⟩ t k).1 ts+
        if start ≤ t ∧ t < start+windowMs ∧ (viaService ⟨windowMs,maxRequests⟩ t k).2.allowed = true then 1
        else 0 := by
  simp only [within,allowedWithin,answers_cons,List.zip_cons_cons,List.countP_cons,Bool.and_eq_true,
    decide_eq_true_eq,and_assoc]

theorem within_late {k : Key} {ts : List ℕ} (h : ∀ t ∈ ts, start+windowMs ≤ t) :
    within windowMs maxRequests start k ts = 0 := by
  induction ts generalizing k with
  | nil => rfl
  | cons t ts ih =>
    have ht := h t (by simp)
    have hno : ¬ (start ≤ t ∧ t < start+windowMs ∧
        (viaService ⟨windowMs,maxRequests⟩ t k).2.allowed = true) := by omega
    rw [within_cons,if_neg hno,ih fun u hu => h u (by simp [hu])]

/-- Bounds from within a window with `n + 1` hits that ends at `e`. -/
structure Bounds (windowMs maxRequests start n e : ℕ) (ts : List ℕ) : Prop where
  covered : start+windowMs ≤ e+1 → within windowMs maxRequests start (some ⟨n+1,some e⟩) ts ≤ maxRequests-(n+1)
  entered : start ≤ e → within windowMs maxRequests start (some ⟨n+1,some e⟩) ts ≤ maxRequests-(n+1)+maxRequests
  twice : within windowMs maxRequests start (some ⟨n+1,some e⟩) ts ≤ 2*maxRequests

/-- A window that opens within the interval covers the rest of it. -/
theorem within_fresh (hmax : 1 ≤ maxRequests) {k : Key} {t : ℕ} {ts : List ℕ} (hk : k.at' t = none)
    (hb : Bounds windowMs maxRequests start 0 (t+windowMs) ts) :
    (start ≤ t → within windowMs maxRequests start k (t::ts) ≤ maxRequests) ∧
      within windowMs maxRequests start k (t::ts) ≤ 2*maxRequests := by
  rw [within_cons,viaService_absent hk]
  simp only
  have hfirst : start ≤ t → within windowMs maxRequests start (some ⟨1,some (t+windowMs)⟩) ts+
      (if start ≤ t ∧ t < start+windowMs ∧ decide (1 ≤ maxRequests) = true then 1 else 0) ≤ maxRequests := by
    intro hstart
    have hcovered := hb.covered (by omega)
    rw [Nat.zero_add] at hcovered
    split <;> omega
  refine ⟨hfirst,?_⟩
  by_cases hstart : start ≤ t
  · have hle := hfirst hstart
    omega
  · have hno : ¬ (start ≤ t ∧ t < start+windowMs ∧ decide (1 ≤ maxRequests) = true) := by omega
    rw [if_neg hno]
    exact hb.twice

theorem bounds (hmax : 1 ≤ maxRequests) {ts : List ℕ} (hsorted : ts.Pairwise (· ≤ ·)) (n e : ℕ) :
    Bounds windowMs maxRequests start n e ts := by
  induction ts generalizing n e with
  | nil => exact ⟨fun _ => Nat.zero_le _,fun _ => Nat.zero_le _,Nat.zero_le _⟩
  | cons t ts ih =>
    rw [List.pairwise_cons] at hsorted
    obtain ⟨hle,hs⟩ := hsorted
    by_cases h : t ≤ e
    · obtain ⟨hcovered,hentered,htwice⟩ := ih hs (n+1) e
      have hstep : within windowMs maxRequests start (some ⟨n+1,some e⟩) (t::ts) =
          within windowMs maxRequests start (some ⟨n+1+1,some e⟩) ts+
            if start ≤ t ∧ t < start+windowMs ∧ n+1+1 ≤ maxRequests then 1 else 0 := by
        rw [within_cons,viaService_running h]
        simp only [decide_eq_true_eq]
      refine ⟨fun hc => ?_,fun he => ?_,?_⟩
      · have hrest := hcovered hc
        rw [hstep]
        split <;> omega
      · have hrest := hentered he
        rw [hstep]
        split <;> omega
      · by_cases he : start ≤ e
        · have hrest := hentered he
          rw [hstep]
          split <;> omega
        · have hno : ¬ (start ≤ t ∧ t < start+windowMs ∧ n+1+1 ≤ maxRequests) := by omega
          rw [hstep,if_neg hno]
          exact htwice
    · have hfresh := within_fresh start hmax (at'_expired (n := n+1) (by omega : e < t)) (ih hs 0 (t+windowMs))
      refine ⟨fun hc => ?_,fun he => ?_,hfresh.2⟩
      · rw [within_late start fun u hu => ?_]
        · exact Nat.zero_le _
        · rcases List.mem_cons.mp hu with rfl | hu
          · omega
          · have hu := hle u hu
            omega
      · have hone := hfresh.1 (by omega)
        omega

theorem within_absent (hmax : 1 ≤ maxRequests) {ts : List ℕ} (hsorted : ts.Pairwise (· ≤ ·)) :
    within windowMs maxRequests start none ts ≤ 2*maxRequests := by
  cases ts with
  | nil => exact Nat.zero_le _
  | cons t ts =>
    rw [List.pairwise_cons] at hsorted
    exact (within_fresh start hmax rfl (bounds start hmax hsorted.2 0 _)).2

end Sliding

/-! ### The guarantees -/

theorem pairwise_pre {pre post : List ℕ} {t : ℕ} (h : (pre++t::post).Pairwise (· ≤ ·)) :
    (pre++[t]).Pairwise (· ≤ ·) := by
  have happ : pre++t::post = (pre++[t])++post := by simp
  rw [happ,List.pairwise_append] at h
  exact h.1

theorem window_allows {k : Key} {t : ℕ} (hmax : 1 ≤ maxRequests) (post : List ℕ)
    (hfirst : ∃ e, (viaService ⟨windowMs,maxRequests⟩ t k).1 = some ⟨1,e⟩) :
    allowed ((answers (viaService ⟨windowMs,maxRequests⟩) k (t::post)).take
      ((t::post).takeWhile (· ≤ t+windowMs)).length) =
        min ((t::post).takeWhile (· ≤ t+windowMs)).length maxRequests := by
  obtain ⟨e,he⟩ := hfirst
  have hone : (fixedWindow windowMs t k).1.count = 1 := by
    have hcounter : (fixedWindow windowMs t k).1 = ⟨1,e⟩ := Option.some.inj he
    rw [hcounter]
  have hkey : (viaService ⟨windowMs,maxRequests⟩ t k).1 = some ⟨1,some (t+windowMs)⟩ :=
    congrArg some (fixedWindow_first hone)
  have hallowed : (viaService ⟨windowMs,maxRequests⟩ t k).2.allowed = true := by
    simp [viaService,checkRateLimit,hone,hmax]
  have hrest : ((answers (viaService ⟨windowMs,maxRequests⟩) (some ⟨1,some (t+windowMs)⟩) post).take
      (post.takeWhile (· ≤ t+windowMs)).length).countP (·.allowed) =
        min (post.takeWhile (· ≤ t+windowMs)).length (maxRequests-1) := allowed_running post
  have hle : t ≤ t+windowMs := by omega
  simp only [List.takeWhile_cons,hle,decide_true,if_true,List.length_cons,answers_cons,hkey,
    List.take_succ_cons,allowed,List.countP_cons,hallowed]
  omega

/-- The caller that is refused learns when the window ends; the first call after it opens one. -/
theorem allowed_after_reset (hmax : 1 ≤ maxRequests) {k : Key} {t t' : ℕ} {mid : List ℕ}
    (ho : Opened windowMs t (viaService ⟨windowMs,maxRequests⟩ t k))
    (hmid : ∀ u ∈ mid, u ≤ (viaService ⟨windowMs,maxRequests⟩ t k).2.resetAt)
    (hreset : (viaService ⟨windowMs,maxRequests⟩ t k).2.resetAt < t') :
    (viaService ⟨windowMs,maxRequests⟩ t' (after (viaService ⟨windowMs,maxRequests⟩)
      (viaService ⟨windowMs,maxRequests⟩ t k).1 mid)).2.allowed = true := by
  obtain ⟨n,e,hkey,_,_,he⟩ := ho
  rw [he] at hmid hreset
  rw [hkey,after_running hmid,viaService_absent (at'_expired hreset)]
  simpa using hmax

theorem guarantees (hmax : 1 ≤ maxRequests) {times : List ℕ} (hsorted : times.Pairwise (· ≤ ·)) :
    Guarantees (viaService ⟨windowMs,maxRequests⟩) windowMs maxRequests times := by
  refine ⟨fun k hk pre t post htimes => ?_,fun start => within_absent start hmax hsorted,
    fun pre t post htimes hfirst => ?_,fun k hk pre t mid t' post htimes _ hmid hreset => ?_⟩
  · subst htimes
    have hopened : Opened windowMs t (viaService ⟨windowMs,maxRequests⟩ t
        (after (viaService ⟨windowMs,maxRequests⟩) k pre)) := opened hk (pairwise_pre hsorted)
    obtain ⟨n,e,hkey,hle,he,_⟩ := hopened
    refine ⟨⟨n+1,some e⟩,e,?_,rfl,hle,he⟩
    rw [after_append]
    exact hkey
  · rw [after_append] at hfirst
    exact window_allows hmax post hfirst
  · subst htimes
    have hafter : after (viaService ⟨windowMs,maxRequests⟩) k (pre++t::mid) =
        after (viaService ⟨windowMs,maxRequests⟩) (viaService ⟨windowMs,maxRequests⟩ t
          (after (viaService ⟨windowMs,maxRequests⟩) k pre)).1 mid := by
      rw [after_append]
      rfl
    rw [hafter]
    exact allowed_after_reset hmax (opened hk (pairwise_pre hsorted)) hmid hreset

end Windows

/-- The two classes are one limiter. -/
theorem viaLimiter_eq {windowMs : ℕ} (h : 1 ≤ windowMs) (maxRequests : ℕ) :
    viaLimiter maxRequests windowMs = viaService ⟨windowMs,maxRequests⟩ := by
  have hwindow : max 1 windowMs = windowMs := by omega
  funext now k
  simp [viaLimiter,viaService,hit,increment,checkRateLimit,hwindow]

/-- Both limiters keep the guarantees, and they allow the same calls. -/
theorem fixed_window (windowMs maxRequests : ℕ) (hwindow : 1 ≤ windowMs) (hmax : 1 ≤ maxRequests)
    (times : List ℕ) (hsorted : times.Pairwise (· ≤ ·)) :
    Guarantees (viaService ⟨windowMs,maxRequests⟩) windowMs maxRequests times ∧
    Guarantees (viaLimiter maxRequests windowMs) windowMs maxRequests times ∧
    ∀ k, (answers (viaService ⟨windowMs,maxRequests⟩) k times).map (·.allowed) =
      (answers (viaLimiter maxRequests windowMs) k times).map (·.allowed) := by
  rw [viaLimiter_eq hwindow]
  exact ⟨guarantees hmax hsorted,guarantees hmax hsorted,fun k => rfl⟩

/-- Two requests in a window of ten milliseconds; the last millisecond of a window still counts. -/
theorem fixed_window_two :
    Guarantees (viaService ⟨10,2⟩) 10 2 [0,9,10,11,12,13] ∧
    Guarantees (viaLimiter 2 10) 10 2 [0,9,10,11,12,13] ∧
    ∀ k, (answers (viaService ⟨10,2⟩) k [0,9,10,11,12,13]).map (·.allowed) =
      (answers (viaLimiter 2 10) k [0,9,10,11,12,13]).map (·.allowed) :=
  fixed_window 10 2 (by decide) (by decide) _ (by decide)

example : (answers (viaService ⟨10,2⟩) none [0,9,10,11,12,13]).map (·.allowed) =
    [true,true,false,true,true,false] := by decide

end ZevraServer.RateLimits
