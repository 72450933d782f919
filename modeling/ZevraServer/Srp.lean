import ZevraServer.Hex
import ZevraServer.Json
import Mathlib.Data.Nat.ModEq
import Mathlib.Data.Int.ModEq
import Mathlib.Data.Nat.Prime.Basic
import Mathlib.Tactic.Linarith
import Mathlib.Tactic.NormNum

/-!
# `SrpService` and `SrpStateService`

The arithmetic of the login and the text under `zevra:srp:{username}`. BigInts are
natural numbers; only the client subtracts. SHA-256 and HMAC-SHA-256 are parameters.
The server also hashes the username and does not use the digest.
-/

namespace ZevraServer

abbrev Bytes := List UInt8

/-- A SHA-256 digest. -/
structure Digest where
  bytes : Bytes
  length_bytes : bytes.length = 32

/-- The functions of `node:crypto`. -/
structure Crypto where
  sha256 : Bytes → Digest
  hmac : (secret message : String) → Digest

/-- The UTF-8 bytes of a text. -/
def utf8 (s : String) : Bytes := s.toUTF8.data.toList

/-- `buf.toString('hex')`. -/
def hexText (l : Bytes) : String := String.ofList (Hex.encode l)

/-- `Buffer.from(s, 'hex')`. -/
def hexBytes (s : String) : Bytes := Hex.decode s.toList

/-- `BigInt('0x' + s)`, or nothing where it throws. -/
def bigInt? (s : String) : Option ℕ := Hex.value? s.toList

/-- `n.toString(16)`. -/
def toString16 (n : ℕ) : String := String.ofList (Hex.numeral n)

/-- `n.toString(16).padStart(2, '0')`. -/
def bigintToHex (n : ℕ) : String := String.ofList ((Hex.numeral n).leftpad 2 '0')

namespace Srp

/-- The blocks of 48 digits of `N_HEX` before its last 32 digits. -/
def nBlocks : List ℕ :=
  [0xFFFFFFFFFFFFFFFFC90FDAA22168C234C4C6628B80DC1CD1,
    0x29024E088A67CC74020BBEA63B139B22514A08798E3404DD,
    0xEF9519B3CD3A431B302B0A6DF25F14374FE1356D6D51C245,
    0xE485B576625E7EC6F44C42E9A637ED6B0BFF5CB6F406B7ED,
    0xEE386BFB5A899FA5AE9F24117C4B1FE649286651ECE45B3D,
    0xC2007CB8A163BF0598DA48361C55D39A69163FA8FD24CF5F,
    0x83655D23DCA3AD961C62F356208552BB9ED529077096966D,
    0x670C354E4ABC9804F1746C08CA18217C32905E462E36CE3B,
    0xE39E772C180E86039B2783A2EC07A28FB5C55DF06F4C52C9,
    0xDE2BCBF6955817183995497CEA956AE515D2261898FA0510]

def N : ℕ :=
  nBlocks.foldl (fun n block => 16^48*n+block) 0*16^32+0x15728E5A8AACAA68FFFFFFFFFFFFFFFF

def G : ℕ := 2

/-- The loop of `modPow`, with the bits of the exponent as fuel. -/
def modPowLoop (modulus : ℕ) : (fuel exponent base result : ℕ) → ℕ
  | 0, _, _, result => result
  | fuel+1, exponent, base, result =>
    if 0 < exponent then
      modPowLoop modulus fuel (exponent >>> 1) (base*base % modulus)
        (if exponent % 2 = 1 then result*base % modulus else result)
    else result

def modPow (base exponent modulus : ℕ) : ℕ :=
  modPowLoop modulus (exponent.log2+1) exponent ((base % modulus+modulus) % modulus) 1

def bigintToBuffer (n : ℕ) : Bytes := Hex.decode ((Hex.numeral n).leftpad 512 '0')

/-- Only nonempty buffers are read. -/
def bufferToBigInt (buf : Bytes) : ℕ := (Hex.value? (Hex.encode buf)).getD 0

def maxAHexLength : ℕ := 1024

def parseClientEphemeral (hex : String) : Option ℕ :=
  if hex.toList.length = 0 ∨ maxAHexLength < hex.toList.length then none
  else if !hex.toList.all Hex.isDigit then none
  else (bigInt? hex).bind fun A => if A % N = 0 then none else some A

section

variable (C : Crypto)

def sha256 (args : List Bytes) : Bytes := (C.sha256 args.flatten).bytes

def computeVerifier (x : ℕ) : ℕ := modPow G x N

/-- The salt and the verifier of `decoyCredentials`. -/
def decoyCredentials (username secret : String) : String × ℕ :=
  (hexText ((C.hmac secret ("zevra-srp-salt:"++username)).bytes.take 16),
    computeVerifier (bufferToBigInt (C.hmac secret ("zevra-srp-x:"++username)).bytes))

def multiplier : ℕ := bufferToBigInt (sha256 C [bigintToBuffer N,bigintToBuffer G])

/-- `B`, for the secret `b` that was drawn. -/
def generateServerEphemeral (v b : ℕ) : ℕ := (multiplier C*v+modPow G b N) % N

/-- `{ valid, M2, K }`. -/
structure Outcome where
  valid : Bool
  M2 : String
  K : Bytes
  deriving DecidableEq, Repr

def Outcome.refused : Outcome := ⟨false,"",[]⟩

/-- `u = H(A, B)`. -/
def scrambler (A B : ℕ) : ℕ := bufferToBigInt (sha256 C [bigintToBuffer A,bigintToBuffer B])

/-- `H(N) xor H(g), H(salt), A, B, K`. -/
def messageM1 (srpSalt : String) (A B : ℕ) (K : Bytes) : List Bytes :=
  let hN := sha256 C [bigintToBuffer N]
  let hg := sha256 C [bigintToBuffer G]
  [List.zipWith (· ^^^ ·) hN hg,sha256 C [hexBytes srpSalt],bigintToBuffer A,bigintToBuffer B,K]

def expectedM1 (srpSalt : String) (A B : ℕ) (K : Bytes) : Bytes := sha256 C (messageM1 C srpSalt A B K)

/-- `/^[0-9a-fA-F]{64}$/.test(M1) ? Buffer.from(M1, 'hex') : Buffer.alloc(0)`. -/
def providedM1 (M1 : String) : Bytes :=
  if M1.toList.length = 64 ∧ M1.toList.all Hex.isDigit then hexBytes M1 else []

def verifyClientProof (A : ℕ) (M1 : String) (b B v : ℕ) (srpSalt : String) : Outcome :=
  if A % N = 0 then .refused
  else
    let u := scrambler C A B
    let S := modPow (A*modPow v u N) b N
    let K := sha256 C [bigintToBuffer S]
    if providedM1 M1 = expectedM1 C srpSalt A B K then
      ⟨true,hexText (sha256 C [bigintToBuffer A,hexBytes M1,K]),K⟩
    else .refused

/-- The client keeps `K` to check `M2`. -/
structure ClientProof where
  A : ℕ
  M1 : String
  K : Bytes

/-- The exponentiation of the client. -/
def clientModPow (base exponent modulus : ℕ) : ℕ :=
  modPowLoop modulus (exponent.log2+1) exponent (base % modulus) 1

/-- `x = H(srpSalt + password)`. -/
def privateKey (srpSalt password : String) : ℕ := bufferToBigInt (sha256 C [utf8 (srpSalt++password)])

/-- The answer of the client to the salt and `B` that `login/start` returned. -/
def clientProof (password srpSalt Bhex : String) (a : ℕ) : Option ClientProof := do
  let B ← bigInt? Bhex
  let A := clientModPow G a N
  let x := privateKey C srpSalt password
  let k := multiplier C
  let u := scrambler C A B
  let base := (((B : ℤ)-k*clientModPow G x N).tmod N+N).tmod N
  let S := clientModPow base.toNat (a+u*x) N
  let K := sha256 C [bigintToBuffer S]
  some ⟨A,hexText (expectedM1 C srpSalt A B K),K⟩

end

end Srp

/-! ### `SrpStateService` -/

/-- What `login/start` leaves for `login/finish`; no user for an unknown or inactive
username. -/
structure SrpState where
  b : ℕ
  B : ℕ
  userId : Option String
  deriving DecidableEq, Repr

/-- The text `set` stores. -/
def SrpState.text (state : SrpState) : String :=
  String.ofList (Json.stringify [("b".toList,some (Hex.numeral state.b)),
    ("B".toList,some (Hex.numeral state.B)),("userId".toList,state.userId.map String.toList)])

/-- What `consume` makes of a text; nothing where it throws. -/
def SrpState.ofText (raw : String) : Option SrpState :=
  if raw = "" then none
  else do
    let parsed ← Json.parse raw.toList
    let b ← (Json.get? parsed "b".toList).join.bind Hex.value?
    let B ← (Json.get? parsed "B".toList).join.bind Hex.value?
    some ⟨b,B,(Json.get? parsed "userId".toList).join.map String.ofList⟩

/-! ### Texts -/

theorem toList_append_ne {c : Char} {l : List Char} : String.ofList (c::l) ≠ "" := by
  intro h
  have hlist := congrArg String.toList h
  simp at hlist

@[simp] theorem bigInt?_toString16 (n : ℕ) : bigInt? (toString16 n) = some n := by
  simp [bigInt?,toString16]

@[simp] theorem bigInt?_bigintToHex (n : ℕ) : bigInt? (bigintToHex n) = some n := by
  rw [bigInt?,bigintToHex,String.toList_ofList,Hex.value?_leftpad (Hex.numeral_ne_nil n),
    Hex.value?_numeral]

@[simp] theorem hexBytes_hexText (l : Bytes) : hexBytes (hexText l) = l := by
  simp [hexBytes,hexText]

/-- `consume` returns what `set` stored. -/
@[simp] theorem SrpState.ofText_text (state : SrpState) : ofText state.text = some state := by
  have hne : state.text ≠ "" := toList_append_ne
  have hkeys : ("b".toList = "B".toList) = False ∧ ("b".toList = "userId".toList) = False ∧
      ("B".toList = "userId".toList) = False ∧ ("userId".toList = "b".toList) = False ∧
      ("userId".toList = "B".toList) = False ∧ ("B".toList = "b".toList) = False := by
    decide
  obtain ⟨b,B,userId⟩ := state
  rw [ofText,if_neg hne,text,String.toList_ofList,Json.parse_stringify]
  cases userId <;> simp [Json.get?]

namespace Srp

/-! ### Modular arithmetic -/

theorem one_lt_N : 1 < N := by decide +kernel

theorem odd_N : N % 2 = 1 := by decide +kernel

theorem N_lt : N < 16^512 := by decide +kernel

theorem N_lt_max : N < 16^maxAHexLength := by decide +kernel

/-- Squaring the base pays for halving the exponent. -/
theorem half_power (b m r : ℤ) (e : ℕ) : r*(b*b % m)^(e/2) % m = r*b^(2*(e/2)) % m := by
  have hpow : (b*b % m)^(e/2) ≡ (b*b)^(e/2) [ZMOD m] := (Int.mod_modEq _ _).pow _
  have hdouble : (b*b)^(e/2) = b^(2*(e/2)) := by
    rw [← pow_two,← pow_mul]
  rw [← hdouble]
  exact hpow.mul_left r

theorem half_power_natCast (b m r e : ℕ) : r*(b*b % m)^(e/2) % m = r*b^(2*(e/2)) % m := by
  exact_mod_cast half_power b m r e

theorem mul_half_power {M : Type} [Monoid M] (b : M) {e : ℕ} (he : e % 2 = 1) : b*b^(2*(e/2)) = b^e := by
  rw [← pow_succ']
  congr 1
  omega

/-- The loop multiplies the result by the power that is left. -/
theorem modPowLoop_eq {m : ℕ} (fuel exponent base result : ℕ) (hfuel : exponent < 2^fuel)
    (hresult : result < m) : modPowLoop m fuel exponent base result = result*base^exponent % m := by
  induction fuel generalizing exponent base result with
  | zero =>
    obtain rfl : exponent = 0 := by omega
    rw [modPowLoop,pow_zero,mul_one,Nat.mod_eq_of_lt hresult]
  | succ fuel ih =>
    rw [modPowLoop]
    by_cases hpos : 0 < exponent
    · rw [if_pos hpos,Nat.shiftRight_one]
      have hm : 0 < m := by omega
      have hhalf : exponent/2 < 2^fuel := by
        rw [pow_succ] at hfuel
        omega
      by_cases hodd : exponent % 2 = 1
      · rw [if_pos hodd,ih _ _ _ hhalf (Nat.mod_lt _ hm),half_power_natCast,Nat.mod_mul_mod,mul_assoc,
          mul_half_power _ hodd]
      · have hexp : 2*(exponent/2) = exponent := by omega
        rw [if_neg hodd,ih _ _ _ hhalf hresult,half_power_natCast,hexp]
    · obtain rfl : exponent = 0 := by omega
      rw [if_neg hpos,pow_zero,mul_one,Nat.mod_eq_of_lt hresult]

theorem modPow_eq {base exponent m : ℕ} (hm : 1 < m) : modPow base exponent m = base^exponent % m := by
  have hbase : (base % m+m) % m = base % m := by rw [Nat.add_mod_right,Nat.mod_mod]
  rw [modPow,modPowLoop_eq _ _ _ _ Nat.lt_log2_self hm,one_mul,hbase]
  exact (Nat.mod_modEq base m).pow exponent

theorem clientModPow_eq {base exponent m : ℕ} (hm : 1 < m) :
    clientModPow base exponent m = base^exponent % m := by
  rw [clientModPow,modPowLoop_eq _ _ _ _ Nat.lt_log2_self hm,one_mul]
  exact (Nat.mod_modEq base m).pow exponent

/-- A power of `g` is not 0 modulo `N`. -/
theorem pow_G_mod_ne (a : ℕ) : G^a % N ≠ 0 := by
  intro h
  have hcop : Nat.Coprime (G^a) N := by
    refine Nat.Coprime.pow_left a ?_
    rw [G,Nat.coprime_two_left,Nat.odd_iff]
    exact odd_N
  have hdvd : N ∣ G^a := Nat.dvd_of_mod_eq_zero h
  have hone : N = 1 := Nat.eq_one_of_dvd_coprimes hcop hdvd dvd_rfl
  have := one_lt_N
  omega

/-- `((y % n) + n) % n` with the remainder of BigInts, which has the sign of `y`. -/
theorem tmod_add_tmod (y : ℤ) {n : ℕ} (hn : 0 < n) : (y.tmod n+n).tmod n = y % n := by
  have hn' : (0 : ℤ) < n := by exact_mod_cast hn
  have hlow : -(n : ℤ) < y.tmod n := Int.lt_tmod_of_pos y hn'
  have hmod : y.tmod n % n = y % n := by rw [Int.tmod_def,Int.sub_mul_emod_self_left]
  rw [Int.tmod_eq_emod_of_nonneg (by omega),Int.add_emod_right,hmod]

/-- The base of the client's exponentiation is `g^b`: the multiple of the verifier cancels. -/
theorem client_base (k x b : ℕ) :
    (((((k*(G^x % N)+G^b % N) % N : ℕ) : ℤ)-k*(G^x % N : ℕ)).tmod N+N).tmod N = (G^b % N : ℕ) := by
  have hN : 0 < N := Nat.lt_trans Nat.zero_lt_one one_lt_N
  rw [tmod_add_tmod _ hN]
  push_cast
  rw [Int.sub_emod,Int.emod_emod_of_dvd _ dvd_rfl,← Int.sub_emod,add_sub_cancel_left,
    Int.emod_emod_of_dvd _ dvd_rfl]

/-- Both sides raise `g` to the same power. -/
theorem secrets_agree (a b u x : ℕ) :
    (G^b % N)^(a+u*x) % N = (G^a % N*((G^x % N)^u % N))^b % N := by
  have hclient : (G^b % N)^(a+u*x) ≡ (G^b)^(a+u*x) [MOD N] := (Nat.mod_modEq _ _).pow _
  have hverifier : (G^x % N)^u % N ≡ (G^x)^u [MOD N] :=
    (Nat.mod_modEq _ _).trans ((Nat.mod_modEq _ _).pow _)
  have hserver : (G^a % N*((G^x % N)^u % N))^b ≡ (G^a*(G^x)^u)^b [MOD N] :=
    ((Nat.mod_modEq _ _).mul hverifier).pow _
  have hpowers : (G^b)^(a+u*x) = (G^a*(G^x)^u)^b := by
    rw [← pow_mul,← pow_mul,← pow_add,← pow_mul]
    congr 1
    ring
  rw [hpowers] at hclient
  exact hclient.trans hserver.symm

/-! ### The two sides -/

/-- The server reads an ephemeral that the client writes without leading zeros. -/
theorem parseClientEphemeral_toString16 {A : ℕ} (hlt : A < 16^maxAHexLength) (hne : A % N ≠ 0) :
    parseClientEphemeral (toString16 A) = some A := by
  have hlen : (Hex.numeral A).length ≤ maxAHexLength := Hex.length_numeral_le (by decide) hlt
  have hpos : (Hex.numeral A).length ≠ 0 := by simpa using Hex.numeral_ne_nil A
  have hguard : ¬ ((toString16 A).toList.length = 0 ∨ maxAHexLength < (toString16 A).toList.length) := by
    rw [toString16,String.toList_ofList]
    omega
  have hdigits : (!(toString16 A).toList.all Hex.isDigit) = false := by
    rw [toString16,String.toList_ofList,Hex.all_isDigit_numeral]
    rfl
  rw [parseClientEphemeral,if_neg hguard,hdigits]
  simp [hne]

theorem providedM1_hexText {l : Bytes} (h : l.length = 32) : providedM1 (hexText l) = l := by
  have hform : (hexText l).toList.length = 64 ∧ (hexText l).toList.all Hex.isDigit = true := by
    rw [hexText,String.toList_ofList,Hex.length_encode,h]
    exact ⟨rfl,Hex.all_isDigit_encode l⟩
  rw [providedM1,if_pos hform,hexBytes_hexText]

variable {C : Crypto}

theorem length_sha256 (args : List Bytes) : (sha256 C args).length = 32 :=
  (C.sha256 args.flatten).length_bytes

/-- What the client sends for the right password. -/
theorem clientProof_eq (password srpSalt : String) (a b : ℕ) :
    let x := privateKey C srpSalt password
    let v := computeVerifier x
    let B := generateServerEphemeral C v b
    let A := G^a % N
    let K := sha256 C [bigintToBuffer ((A*(v^scrambler C A B % N))^b % N)]
    clientProof C password srpSalt (bigintToHex B) a =
      some ⟨A,hexText (expectedM1 C srpSalt A B K),K⟩ := by
  intro x v B A K
  have hv : v = G^x % N := modPow_eq one_lt_N
  have hbase : (((B : ℤ)-multiplier C*clientModPow G x N).tmod N+N).tmod N = (G^b % N : ℕ) := by
    have hB : B = (multiplier C*(G^x % N)+G^b % N) % N := by
      rw [← hv]
      simp only [B,generateServerEphemeral,modPow_eq one_lt_N]
    rw [hB,clientModPow_eq one_lt_N]
    exact client_base _ _ _
  have hS : clientModPow (G^b % N) (a+scrambler C A B*x) N =
      (A*(v^scrambler C A B % N))^b % N := by
    rw [clientModPow_eq one_lt_N,secrets_agree,hv]
  have hA : clientModPow G a N = A := clientModPow_eq one_lt_N
  simp only [clientProof,bigInt?_bigintToHex,Option.bind_eq_bind,Option.bind_some,hA]
  rw [show (((B : ℤ)-multiplier C*clientModPow G (privateKey C srpSalt password) N).tmod N+N).tmod N
    = (G^b % N : ℕ) from hbase,Int.toNat_natCast]
  simp only [← show x = privateKey C srpSalt password from rfl,hS]
  rfl

/-- The server accepts the expected proof and answers with its own. -/
theorem verifyClientProof_expected {A : ℕ} (hA : A % N ≠ 0) (b B v : ℕ) (srpSalt : String) :
    let K := sha256 C [bigintToBuffer ((A*(v^scrambler C A B % N))^b % N)]
    let M1 := expectedM1 C srpSalt A B K
    verifyClientProof C A (hexText M1) b B v srpSalt =
      ⟨true,hexText (sha256 C [bigintToBuffer A,M1,K]),K⟩ := by
  intro K M1
  have hM1 : M1.length = 32 := length_sha256 _
  simp only [verifyClientProof,if_neg hA,modPow_eq one_lt_N]
  rw [providedM1_hexText hM1,if_pos rfl,hexBytes_hexText]

theorem all_isDigit_leftpad (n : ℕ) : ((Hex.numeral n).leftpad 512 '0').all Hex.isDigit = true := by
  have hzero : Hex.isDigit '0' = true := rfl
  simp [List.leftpad,hzero,Hex.all_isDigit_numeral]

/-- A number below `16^512` is padded to exactly 512 digits. -/
theorem length_leftpad_numeral {n : ℕ} (h : n < 16^512) :
    ((Hex.numeral n).leftpad 512 '0').length = 512 := by
  have hle := Hex.length_numeral_le (by omega) h
  rw [List.leftpad,List.length_append,List.length_replicate]
  omega

theorem length_bigintToBuffer {n : ℕ} (h : n < 16^512) : (bigintToBuffer n).length = 256 := by
  have hlen := length_leftpad_numeral h
  have hhalf := Hex.length_decode _ (by rw [hlen]) (all_isDigit_leftpad n)
  rw [hlen] at hhalf
  rw [bigintToBuffer]
  omega

/-- A number with an even number of padded digits is read back from its buffer. -/
theorem foldl_bigintToBuffer {n : ℕ} (h : ((Hex.numeral n).leftpad 512 '0').length % 2 = 0) :
    (bigintToBuffer n).foldl (fun n x => 256*n+x.toNat) 0 = n := by
  have hread := Hex.read_eq_foldl 0 _ h (all_isDigit_leftpad n)
  rw [List.leftpad,Hex.read_zeros,Hex.read_numeral,← List.leftpad] at hread
  exact (Option.some.inj hread).symm

/-- Numbers of at most 512 digits are read back from their buffers. -/
theorem bigintToBuffer_inj {m n : ℕ} (hm : m < 16^512) (hn : n < 16^512)
    (h : bigintToBuffer m = bigintToBuffer n) : m = n := by
  have hread : ∀ {k : ℕ}, k < 16^512 →
      (bigintToBuffer k).foldl (fun n x => 256*n+x.toNat) 0 = k :=
    fun hk => foldl_bigintToBuffer (by rw [length_leftpad_numeral hk])
  have hmn := hread hm
  rw [h,hread hn] at hmn
  exact hmn.symm

theorem valid_verifyClientProof {A b B v : ℕ} {M1 srpSalt : String}
    (h : (verifyClientProof C A M1 b B v srpSalt).valid = true) :
    ∃ K : Bytes, providedM1 M1 = expectedM1 C srpSalt A B K := by
  by_cases hA : A % N = 0
  · simp [verifyClientProof,hA,Outcome.refused] at h
  · by_contra hno
    have hM1 : ∀ K, providedM1 M1 ≠ expectedM1 C srpSalt A B K := fun K hK => hno ⟨K,hK⟩
    simp [verifyClientProof,hA,hM1,Outcome.refused] at h

/-- One proof for two values of `B` is a collision of SHA-256. -/
theorem collision_of_expectedM1 {A B B' : ℕ} {srpSalt srpSalt' : String} {K K' : Bytes} (hB : B < N)
    (hB' : B' < N) (hne : B ≠ B') (h : expectedM1 C srpSalt A B K = expectedM1 C srpSalt' A B' K') :
    ∃ x y, x ≠ y ∧ (C.sha256 x).bytes = (C.sha256 y).bytes := by
  refine ⟨(messageM1 C srpSalt A B K).flatten,(messageM1 C srpSalt' A B' K').flatten,fun he => ?_,h⟩
  simp only [messageM1,List.flatten_cons] at he
  have hrest := (List.append_inj he rfl).2
  have hsalts := (List.append_inj hrest (by rw [length_sha256,length_sha256])).2
  have hAs := (List.append_inj hsalts rfl).2
  have hlen : (bigintToBuffer B).length = (bigintToBuffer B').length := by
    rw [length_bigintToBuffer (Nat.lt_trans hB N_lt),length_bigintToBuffer (Nat.lt_trans hB' N_lt)]
  have hBs := (List.append_inj hAs hlen).1
  exact hne (bigintToBuffer_inj (Nat.lt_trans hB N_lt) (Nat.lt_trans hB' N_lt) hBs)

end Srp

end ZevraServer
