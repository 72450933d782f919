import ZevraServer.Srp

/-!
# The bytes of the client's ephemeral

`bigintToBuffer` pads to 512 digits, and the client may send up to 1024.
`Buffer.from(hex, 'hex')` reads pairs, so an odd numeral above the padding loses its last
digit: the bytes are those of the number without it.
-/

namespace ZevraServer

namespace Srp

/-- A value that `parseClientEphemeral` accepts. -/
structure Ephemeral where
  hex : String
  A : ℕ
  parsed : parseClientEphemeral hex = some A

/-- The numeral is longer than the padding and has an odd number of digits. -/
def Truncated (n : ℕ) : Prop := 512 < (Hex.numeral n).length ∧ (Hex.numeral n).length % 2 = 1

instance (n : ℕ) : Decidable (Truncated n) := by
  unfold Truncated
  infer_instance

/-- Neither number is the other one without its last digit, and they do not differ only in
a last digit that both lose. -/
structure Apart (m n : ℕ) : Prop where
  left : Truncated m → m/16 ≠ n
  right : Truncated n → n/16 ≠ m
  both : Truncated m → Truncated n → m/16 ≠ n/16

/-- What `u` is the hash of. -/
def messageU (A B : ℕ) : List Bytes := [bigintToBuffer A,bigintToBuffer B]

/-- What `M2` is the hash of. -/
def messageM2 (A : ℕ) (M1 K : Bytes) : List Bytes := [bigintToBuffer A,M1,K]

/-- Two values have different bytes, and whatever else the server hashes with them, the
messages under `u`, `M1` and `M2` differ. -/
structure Binds (A₁ A₂ : ℕ) : Prop where
  buffer : bigintToBuffer A₁ ≠ bigintToBuffer A₂
  u : ∀ B₁ < N, ∀ B₂ < N, (messageU A₁ B₁).flatten ≠ (messageU A₂ B₂).flatten
  M1 : ∀ (C : Crypto) (srpSalt₁ srpSalt₂ : String), ∀ B₁ < N, ∀ B₂ < N, ∀ K₁ K₂ : Bytes,
    K₁.length = K₂.length →
    (messageM1 C srpSalt₁ A₁ B₁ K₁).flatten ≠ (messageM1 C srpSalt₂ A₂ B₂ K₂).flatten
  M2 : ∀ M1₁ M1₂ K₁ K₂ : Bytes, M1₁.length = M1₂.length → K₁.length = K₂.length →
    (messageM2 A₁ M1₁ K₁).flatten ≠ (messageM2 A₂ M1₂ K₂).flatten

variable {C : Crypto} {m n : ℕ}

theorem scrambler_eq (A B : ℕ) : scrambler C A B = bufferToBigInt (sha256 C (messageU A B)) := rfl

/-- The proof of the server is the hash of its message. -/
theorem M2_of_valid {A b B v : ℕ} {M1 srpSalt : String}
    (h : (verifyClientProof C A M1 b B v srpSalt).valid = true) :
    (verifyClientProof C A M1 b B v srpSalt).M2 = hexText (sha256 C
      (messageM2 A (hexBytes M1) (verifyClientProof C A M1 b B v srpSalt).K)) := by
  by_cases hA : A % N = 0
  · simp [verifyClientProof,hA,Outcome.refused] at h
  · simp only [verifyClientProof,if_neg hA] at h ⊢
    split_ifs at h ⊢ with hM1
    · rfl
    · simp [Outcome.refused] at h

/-! ### The digit that is lost -/

theorem length_leftpad_even (h : ¬ Truncated n) : ((Hex.numeral n).leftpad 512 '0').length % 2 = 0 := by
  rw [Truncated] at h
  rw [List.leftpad,List.length_append,List.length_replicate]
  omega

theorem leftpad_eq_self {s : List Char} (h : 512 ≤ s.length) : s.leftpad 512 '0' = s := by
  have hzero : 512-s.length = 0 := by omega
  rw [List.leftpad,hzero,List.replicate_zero,List.nil_append]

theorem Truncated.numeral_eq (h : Truncated n) :
    Hex.numeral n = Hex.numeral (n/16)++[Nat.digitChar (n % 16)] := by
  have hlarge : 16 ≤ n := by
    by_contra hsmall
    have hone := Hex.length_numeral_le (n := n) (k := 1) (by omega) (by omega)
    have := h.1
    omega
  exact Nat.toDigits_of_base_le (by omega) hlarge

theorem Truncated.length_numeral_div (h : Truncated n) :
    (Hex.numeral n).length = (Hex.numeral (n/16)).length+1 := by
  rw [h.numeral_eq,List.length_append,List.length_singleton]

theorem Truncated.not_div (h : Truncated n) : ¬ Truncated (n/16) := by
  have hlen := h.length_numeral_div
  have hodd := h.2
  rintro ⟨-,hodd'⟩
  omega

/-- The bytes are those of the number without its last digit. -/
theorem Truncated.bigintToBuffer_eq (h : Truncated n) : bigintToBuffer n = bigintToBuffer (n/16) := by
  have hlen := h.length_numeral_div
  have hlong := h.1
  have hodd := h.2
  have heven : (Hex.numeral (n/16)).length % 2 = 0 := by omega
  rw [bigintToBuffer,bigintToBuffer,leftpad_eq_self (by omega),leftpad_eq_self (by omega),h.numeral_eq,
    Hex.decode_append _ _ heven (Hex.all_isDigit_numeral _)]
  exact List.append_nil _

/-- After a one and an even number of zeros, no fewer than the padding, the last digit is lost. -/
theorem truncated_pow_add {k d : ℕ} (hk : 512 ≤ k) (heven : k % 2 = 0) (hd : d < 16) : Truncated (16^k+d) := by
  have hpos : 16 ≤ 16^k := Nat.le_self_pow (by omega) 16
  have hlen : (Hex.numeral (16^k+d)).length = k+1 := by
    refine Hex.length_numeral_eq (by omega) (Nat.le_add_right _ _) ?_
    rw [pow_succ]
    omega
  exact ⟨by omega,by omega⟩

theorem bigintToBuffer_pow_add {k d e : ℕ} (hk : 512 ≤ k) (heven : k % 2 = 0) (hd : d < 16) (he : e < 16) :
    bigintToBuffer (16^k+d) = bigintToBuffer (16^k+e) := by
  have hdiv : (16^k+d)/16 = (16^k+e)/16 := by
    obtain ⟨j,rfl⟩ : ∃ j, k = j+1 := ⟨k-1,by omega⟩
    rw [pow_succ]
    omega
  rw [(truncated_pow_add hk heven hd).bigintToBuffer_eq,(truncated_pow_add hk heven he).bigintToBuffer_eq,
    hdiv]

/-- Numbers that keep their digits are told apart. -/
theorem bigintToBuffer_inj_of_not (hm : ¬ Truncated m) (hn : ¬ Truncated n)
    (h : bigintToBuffer m = bigintToBuffer n) : m = n := by
  have hmn := foldl_bigintToBuffer (length_leftpad_even hm)
  rw [h,foldl_bigintToBuffer (length_leftpad_even hn)] at hmn
  exact hmn.symm

/-- The number that is hashed. -/
def hashed (n : ℕ) : ℕ := if Truncated n then n/16 else n

theorem not_truncated_hashed (n : ℕ) : ¬ Truncated (hashed n) := by
  by_cases h : Truncated n
  · rw [hashed,if_pos h]
    exact h.not_div
  · rwa [hashed,if_neg h]

theorem bigintToBuffer_hashed (n : ℕ) : bigintToBuffer (hashed n) = bigintToBuffer n := by
  by_cases h : Truncated n
  · rw [hashed,if_pos h,h.bigintToBuffer_eq]
  · rw [hashed,if_neg h]

theorem bigintToBuffer_eq_iff : bigintToBuffer m = bigintToBuffer n ↔ hashed m = hashed n := by
  rw [← bigintToBuffer_hashed m,← bigintToBuffer_hashed n]
  exact ⟨bigintToBuffer_inj_of_not (not_truncated_hashed m) (not_truncated_hashed n),congrArg _⟩

theorem hashed_ne_iff (h : m ≠ n) : hashed m ≠ hashed n ↔ Apart m n := by
  by_cases hm : Truncated m <;> by_cases hn : Truncated n
  · have hleft : m/16 ≠ n := fun he => hm.not_div (he ▸ hn)
    have hright : n/16 ≠ m := fun he => hn.not_div (he ▸ hm)
    rw [hashed,hashed,if_pos hm,if_pos hn]
    exact ⟨fun hne => ⟨fun _ => hleft,fun _ => hright,fun _ _ => hne⟩,fun hapart => hapart.both hm hn⟩
  · rw [hashed,hashed,if_pos hm,if_neg hn]
    exact ⟨fun hne => ⟨fun _ => hne,fun hn' => absurd hn' hn,fun _ hn' => absurd hn' hn⟩,
      fun hapart => hapart.left hm⟩
  · rw [hashed,hashed,if_neg hm,if_pos hn]
    exact ⟨fun hne => ⟨fun hm' => absurd hm' hm,fun _ => hne.symm,fun hm' => absurd hm' hm⟩,
      fun hapart => (hapart.right hn).symm⟩
  · rw [hashed,hashed,if_neg hm,if_neg hn]
    exact ⟨fun _ => ⟨fun hm' => absurd hm' hm,fun hn' => absurd hn' hn,fun hm' => absurd hm' hm⟩,fun _ => h⟩

theorem bigintToBuffer_ne_iff (h : m ≠ n) : bigintToBuffer m ≠ bigintToBuffer n ↔ Apart m n := by
  rw [← hashed_ne_iff h,Ne,Ne,bigintToBuffer_eq_iff]

/-! ### What is hashed with them -/

/-- The other parts of the messages have fixed lengths. -/
theorem binds_of_ne (h : bigintToBuffer m ≠ bigintToBuffer n) : Binds m n := by
  have hB : ∀ B < N, (bigintToBuffer B).length = 256 :=
    fun B hB => length_bigintToBuffer (Nat.lt_trans hB N_lt)
  refine ⟨h,?_,?_,?_⟩
  · intro B₁ hB₁ B₂ hB₂ he
    simp only [messageU,List.flatten_cons,List.flatten_nil,List.append_nil] at he
    exact h (List.append_inj_left' he (by rw [hB B₁ hB₁,hB B₂ hB₂]))
  · intro C srpSalt₁ srpSalt₂ B₁ hB₁ B₂ hB₂ K₁ K₂ hK he
    simp only [messageM1,List.flatten_cons,List.flatten_nil,List.append_nil] at he
    have hrest := (List.append_inj he rfl).2
    have hAs := (List.append_inj hrest (by rw [length_sha256,length_sha256])).2
    refine h (List.append_inj_left' hAs ?_)
    rw [List.length_append,List.length_append,hB B₁ hB₁,hB B₂ hB₂,hK]
  · intro M1₁ M1₂ K₁ K₂ hM1 hK he
    simp only [messageM2,List.flatten_cons,List.flatten_nil,List.append_nil] at he
    refine h (List.append_inj_left' he ?_)
    rw [List.length_append,List.length_append,hM1,hK]

/-- Two different values that are accepted are told apart exactly when no digit that tells
them apart is lost. -/
theorem binds_iff_apart (E₁ E₂ : Ephemeral) (h : E₁.A ≠ E₂.A) : Binds E₁.A E₂.A ↔ Apart E₁.A E₂.A := by
  constructor
  · intro hbinds
    exact (bigintToBuffer_ne_iff h).mp hbinds.buffer
  · intro hapart
    exact binds_of_ne ((bigintToBuffer_ne_iff h).mpr hapart)

theorem binds_iff_apart_small : Binds 2 3 ∧ Apart 2 3 := by
  have hiff := binds_iff_apart ⟨"2",2,by decide +kernel⟩ ⟨"3",3,by decide +kernel⟩ (by decide)
  have hapart : Apart 2 3 := ⟨by decide,by decide,by decide⟩
  exact ⟨hiff.mpr hapart,hapart⟩

theorem ephemerals_lose_digit :
    parseClientEphemeral (toString16 (16^512)) = some (16^512) ∧
      parseClientEphemeral (toString16 (16^512+1)) = some (16^512+1) ∧
      16^512 ≠ 16^512+1 ∧ bigintToBuffer (16^512) = bigintToBuffer (16^512+1) ∧
      (∀ (C : Crypto) (B : ℕ), scrambler C (16^512) B = scrambler C (16^512+1) B) ∧
      ¬ Binds (16^512) (16^512+1) := by
  have hbuffer : bigintToBuffer (16^512) = bigintToBuffer (16^512+1) := by
    have heven : 512 % 2 = 0 := rfl
    have hpow := bigintToBuffer_pow_add le_rfl heven (Nat.zero_lt_succ 15) (Nat.one_lt_succ_succ 14)
    rwa [Nat.add_zero] at hpow
  refine ⟨parseClientEphemeral_toString16 (by decide +kernel) (by decide +kernel),
    parseClientEphemeral_toString16 (by decide +kernel) (by decide +kernel),
    by decide +kernel,hbuffer,fun C B => ?_,fun h => h.buffer hbuffer⟩
  rw [scrambler,scrambler,hbuffer]

end Srp

end ZevraServer
