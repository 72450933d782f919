import ZevraServer.Base64
import ZevraServer.Srp
import Mathlib.Computability.RegularExpressions

/-!
# Sealed private keys

`sealPrivateKey` and `unsealPrivateKey` of `crypto.service.ts` and the pattern of
`rotate-keys.dto.ts`. AES-256-GCM is a parameter; the nonce that is drawn is an argument.
-/

namespace ZevraServer

namespace SealedKeys

/-- `aes-256-gcm` of `node:crypto`; nothing where it throws. -/
structure Aes256Gcm where
  encrypt : (key iv plaintext : Bytes) → Option (Bytes × Bytes)
  decrypt : (key iv tag ciphertext : Bytes) → Option Bytes
  encrypts : ∀ key iv plaintext : Bytes, key.length = 32 → iv.length = 12 →
    ∃ ciphertext tag, encrypt key iv plaintext = some (ciphertext,tag) ∧
      ciphertext.length = plaintext.length ∧ tag.length = 16
  decrypts : ∀ key iv plaintext ciphertext tag : Bytes, key.length = 32 → iv.length = 12 →
    encrypt key iv plaintext = some (ciphertext,tag) → decrypt key iv tag ciphertext = some plaintext

/-- `iv:tag:ciphertext`. -/
def sealedText (iv tag ciphertext : Bytes) : String :=
  String.ofList (Base64.encode iv++[':']++Base64.encode tag++[':']++Base64.encode ciphertext)

/-- `s.split(':')`. -/
def splitColons (s : String) : List (List Char) := s.toList.splitOn ':'

section

variable (G : Aes256Gcm)

def sealPrivateKey (iv privateKey kek : Bytes) : Option String :=
  (G.encrypt kek iv privateKey).map fun r => sealedText iv r.2 r.1

/-- `Buffer.from(undefined, 'base64')` throws where a part is missing. -/
def unsealPrivateKey (text : String) (kek : Bytes) : Option Bytes :=
  match splitColons text with
  | iv::tag::ciphertext::_ =>
    G.decrypt kek (Base64.decode iv) (Base64.decode tag) (Base64.decode ciphertext)
  | _ => none

end

/-! ### The pattern -/

/-- `[…]`. -/
def oneOf (cs : List Char) : RegularExpression Char := cs.foldr (fun c r => .char c+r) 0

/-- `r+`. -/
def oneOrMore (r : RegularExpression Char) : RegularExpression Char := r*r.star

/-- `r{0,2}`. -/
def upToTwo (r : RegularExpression Char) : RegularExpression Char := 1+r+r*r

/-- `[A-Za-z0-9+/]+={0,2}`. -/
def BASE64_RE : RegularExpression Char := oneOrMore (oneOf Base64.alphabet)*upToTwo (.char '=')

def SEALED_KEY_RE : RegularExpression Char :=
  BASE64_RE*.char ':'*BASE64_RE*.char ':'*BASE64_RE

/-- `@Matches(SEALED_KEY_RE)`. -/
def matchesSealedKey (s : String) : Bool := SEALED_KEY_RE.rmatch s.toList

variable {G : Aes256Gcm} {iv tag ciphertext key kek : Bytes} {cs s : List Char} {c : Char}

theorem mem_oneOf (h : c ∈ cs) : [c] ∈ (oneOf cs).matches' := by
  induction cs with
  | nil => cases h
  | cons d cs ih =>
    rw [oneOf,List.foldr_cons,RegularExpression.matches'_add]
    rcases List.mem_cons.mp h with rfl | h
    · exact .inl rfl
    · exact .inr (ih h)

theorem mem_oneOrMore (hne : s ≠ []) (h : ∀ c ∈ s, c ∈ cs) : s ∈ (oneOrMore (oneOf cs)).matches' := by
  cases s with
  | nil => exact absurd rfl hne
  | cons c s =>
    refine Language.mem_mul.mpr ⟨[c],mem_oneOf (h c List.mem_cons_self),s,?_,rfl⟩
    refine Language.mem_kstar.mpr ⟨s.map ([·]),?_,?_⟩
    · exact (List.flatMap_singleton' s).symm
    · intro t ht
      obtain ⟨d,hd,rfl⟩ := List.mem_map.mp ht
      exact mem_oneOf (h d (List.mem_cons_of_mem c hd))

theorem mem_filling (n : ℕ) : Base64.filling n ∈ (upToTwo (.char '=')).matches' := by
  rw [Base64.filling]
  obtain h | h | h : (3-n % 3) % 3 = 0 ∨ (3-n % 3) % 3 = 1 ∨ (3-n % 3) % 3 = 2 := by omega
  · rw [h]
    exact .inl (.inl rfl)
  · rw [h]
    exact .inl (.inr rfl)
  · rw [h]
    exact .inr (Language.mem_mul.mpr ⟨['='],rfl,['='],rfl,rfl⟩)

/-- The text of bytes matches its part of the pattern. -/
theorem encode_mem {l : Bytes} (h : l ≠ []) : Base64.encode l ∈ BASE64_RE.matches' :=
  Language.mem_mul.mpr ⟨Base64.digits l,
    mem_oneOrMore (Base64.digits_ne_nil h) (fun _ => Base64.mem_digits),Base64.filling l.length,
    mem_filling _,rfl⟩

theorem matchesSealedKey_sealedText (hiv : iv ≠ []) (htag : tag ≠ []) (hciphertext : ciphertext ≠ []) :
    matchesSealedKey (sealedText iv tag ciphertext) = true := by
  rw [matchesSealedKey,sealedText,String.toList_ofList,RegularExpression.rmatch_iff_matches']
  have hcolon : [':'] ∈ (RegularExpression.char ':').matches' := rfl
  exact Language.append_mem_mul (Language.append_mem_mul (Language.append_mem_mul
    (Language.append_mem_mul (encode_mem hiv) hcolon) (encode_mem htag)) hcolon) (encode_mem hciphertext)

/-! ### The parts -/

theorem colon_not_mem_encode (l : Bytes) : ':' ∉ Base64.encode l := by
  intro h
  have halphabet : ':' ∉ Base64.alphabet := by decide
  rcases Base64.mem_encode h with h | h
  · exact halphabet h
  · exact absurd h (by decide)

theorem splitColons_sealedText (iv tag ciphertext : Bytes) :
    splitColons (sealedText iv tag ciphertext) =
      [Base64.encode iv,Base64.encode tag,Base64.encode ciphertext] := by
  have hjoin : Base64.encode iv++[':']++Base64.encode tag++[':']++Base64.encode ciphertext =
      [':'].intercalate [Base64.encode iv,Base64.encode tag,Base64.encode ciphertext] := by
    simp [List.intercalate]
  rw [splitColons,sealedText,String.toList_ofList,hjoin]
  refine List.splitOn_intercalate _ ?_ (List.cons_ne_nil _ _)
  intro l hl
  simp only [List.mem_cons,List.not_mem_nil,or_false] at hl
  rcases hl with rfl | rfl | rfl
  · exact colon_not_mem_encode _
  · exact colon_not_mem_encode _
  · exact colon_not_mem_encode _

/-- The text determines its parts. -/
theorem sealedText_inj {iv' tag' ciphertext' : Bytes}
    (h : sealedText iv' tag' ciphertext' = sealedText iv tag ciphertext) :
    iv' = iv ∧ tag' = tag ∧ ciphertext' = ciphertext := by
  have hparts := splitColons_sealedText iv' tag' ciphertext'
  rw [h,splitColons_sealedText] at hparts
  simp only [List.cons.injEq,and_true] at hparts
  obtain ⟨hiv,htag,hciphertext⟩ := hparts
  exact ⟨Base64.encode_inj hiv.symm,Base64.encode_inj htag.symm,Base64.encode_inj hciphertext.symm⟩

theorem unsealPrivateKey_sealedText (iv tag ciphertext kek : Bytes) :
    unsealPrivateKey G (sealedText iv tag ciphertext) kek = G.decrypt kek iv tag ciphertext := by
  simp only [unsealPrivateKey,splitColons_sealedText,Base64.decode_encode]

/-- A text that is accepted as a sealed key and holds nothing but its three parts. -/
structure WellSealed (text : String) (iv tag ciphertext : Bytes) : Prop where
  accepted : matchesSealedKey text = true
  parts : splitColons text = [Base64.encode iv,Base64.encode tag,Base64.encode ciphertext]
  unique : ∀ iv' tag' ciphertext' : Bytes, sealedText iv' tag' ciphertext' = text →
    iv' = iv ∧ tag' = tag ∧ ciphertext' = ciphertext

/-- What is sealed is unsealed with the same key, and the text is one that the validator of
a rotation accepts. -/
theorem sealPrivateKey_unseals (G : Aes256Gcm) (iv key kek : Bytes) (hkey : key ≠ [])
    (hkek : kek.length = 32) (hiv : iv.length = 12) :
    ∃ text ciphertext tag, G.encrypt kek iv key = some (ciphertext,tag) ∧
      sealPrivateKey G iv key kek = some text ∧ unsealPrivateKey G text kek = some key ∧
      WellSealed text iv tag ciphertext := by
  obtain ⟨ciphertext,tag,hencrypt,hlength,htag⟩ := G.encrypts kek iv key hkek hiv
  have hdecrypt := G.decrypts kek iv key ciphertext tag hkek hiv hencrypt
  have hivne : iv ≠ [] := List.ne_nil_of_length_pos (by omega)
  have htagne : tag ≠ [] := List.ne_nil_of_length_pos (by omega)
  have hciphertext : ciphertext ≠ [] := by
    refine List.ne_nil_of_length_pos ?_
    rw [hlength]
    exact List.length_pos_iff.mpr hkey
  refine ⟨sealedText iv tag ciphertext,ciphertext,tag,hencrypt,?_,?_,?_⟩
  · rw [sealPrivateKey,hencrypt,Option.map_some]
  · rw [unsealPrivateKey_sealedText,hdecrypt]
  · exact ⟨matchesSealedKey_sealedText hivne htagne hciphertext,splitColons_sealedText _ _ _,
      fun _ _ _ => sealedText_inj⟩

/-- The encryption of a block of zeros under the zero key and the zero nonce. -/
def zeroBlock : Bytes :=
  [0xce,0xa7,0x40,0x3d,0x4d,0x60,0x6b,0x6e,0x07,0x4e,0xc5,0xd3,0xba,0xf3,0x9d,0x18]

def zeroTag : Bytes :=
  [0xd0,0xd1,0xc8,0xa7,0x99,0x99,0x6b,0xf0,0x26,0x5b,0x98,0xb5,0xd4,0x8a,0xb9,0x19]

def masked (l : Bytes) : Bytes := l.mapIdx fun i x => x^^^zeroBlock.getD (i % 16) 0

@[simp] theorem masked_masked (l : Bytes) : masked (masked l) = l := by
  refine List.ext_getElem (by simp [masked]) fun i _ _ => ?_
  simp only [masked,List.getElem_mapIdx,UInt8.xor_assoc,UInt8.xor_self,UInt8.xor_zero]

/-- A cipher that agrees with `aes-256-gcm` on a block of zeros under the zero key and nonce. -/
def zeroCipher : Aes256Gcm where
  encrypt key iv plaintext :=
    if key.length = 32 ∧ iv.length = 12 then some (masked plaintext,zeroTag) else none
  decrypt key iv tag ciphertext :=
    if key.length = 32 ∧ iv.length = 12 ∧ tag = zeroTag then some (masked ciphertext) else none
  encrypts key iv plaintext hkey hiv :=
    ⟨masked plaintext,zeroTag,if_pos ⟨hkey,hiv⟩,by simp [masked],rfl⟩
  decrypts key iv plaintext ciphertext tag hkey hiv h := by
    rw [if_pos ⟨hkey,hiv⟩] at h
    obtain ⟨rfl,rfl⟩ := Prod.mk.inj (Option.some.inj h)
    rw [if_pos ⟨hkey,hiv,rfl⟩,masked_masked]

theorem sealPrivateKey_unseals_zeros :
    ∃ text ciphertext tag,
      zeroCipher.encrypt (List.replicate 32 0) (List.replicate 12 0) (List.replicate 16 0) =
        some (ciphertext,tag) ∧
      sealPrivateKey zeroCipher (List.replicate 12 0) (List.replicate 16 0) (List.replicate 32 0) =
        some text ∧
      unsealPrivateKey zeroCipher text (List.replicate 32 0) = some (List.replicate 16 0) ∧
      WellSealed text (List.replicate 12 0) tag ciphertext :=
  sealPrivateKey_unseals zeroCipher (List.replicate 12 0) (List.replicate 16 0) (List.replicate 32 0)
    (by decide) (by decide) (by decide)

end SealedKeys

end ZevraServer
