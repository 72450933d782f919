import Mathlib.Data.List.Basic
import Mathlib.Tactic.Common

/-!
# Base64

Three bytes are four sextets, and each sextet is a character; two bytes and one byte at
the end leave three and two, and the text is filled up with `=`. Reading takes the URL
alphabet as well and skips every other character, so the filling is skipped too.
-/

namespace Base64

def alphabet : List Char := "ABCDEFGHIJKLMNOPQRSTUVWXYZabcdefghijklmnopqrstuvwxyz0123456789+/".toList

def char (n : ℕ) : Char := alphabet.getD n 'A'

def value? (c : Char) : Option ℕ :=
  if 65 ≤ c.toNat ∧ c.toNat ≤ 90 then some (c.toNat-65)
  else if 97 ≤ c.toNat ∧ c.toNat ≤ 122 then some (c.toNat-71)
  else if 48 ≤ c.toNat ∧ c.toNat ≤ 57 then some (c.toNat+4)
  else if c = '+' ∨ c = '-' then some 62
  else if c = '/' ∨ c = '_' then some 63
  else none

def sextets : List UInt8 → List ℕ
  | x::y::z::l =>
    x.toNat/4::(x.toNat % 4*16+y.toNat/16)::(y.toNat % 16*4+z.toNat/64)::z.toNat % 64::sextets l
  | [x,y] => [x.toNat/4,x.toNat % 4*16+y.toNat/16,y.toNat % 16*4]
  | [x] => [x.toNat/4,x.toNat % 4*16]
  | [] => []

/-- The bytes of the sextets; bits that fill no byte are dropped. -/
def bytes : List ℕ → List UInt8
  | a::b::c::d::l =>
    UInt8.ofNat (a*4+b/16)::UInt8.ofNat (b % 16*16+c/4)::UInt8.ofNat (c % 4*64+d)::bytes l
  | [a,b,c] => [UInt8.ofNat (a*4+b/16),UInt8.ofNat (b % 16*16+c/4)]
  | [a,b] => [UInt8.ofNat (a*4+b/16)]
  | _ => []

def digits (l : List UInt8) : List Char := (sextets l).map char

/-- Up to two characters that complete the last four. -/
def filling (n : ℕ) : List Char := List.replicate ((3-n % 3) % 3) '='

def encode (l : List UInt8) : List Char := digits l++filling l.length

def decode (s : List Char) : List UInt8 := bytes (s.filterMap value?)

variable {l m : List UInt8} {c : Char} {n : ℕ}

theorem value?_char (h : n < 64) : value? (char n) = some n := by
  have hall : ∀ n < 64, value? (char n) = some n := by decide +kernel
  exact hall n h

theorem char_mem (h : n < 64) : char n ∈ alphabet := by
  have hall : ∀ n < 64, char n ∈ alphabet := by decide +kernel
  exact hall n h

theorem sextets_lt (l : List UInt8) : ∀ n ∈ sextets l, n < 64 := by
  induction l using sextets.induct with
  | case1 x y z l ih =>
    have hx := x.toNat_lt
    have hy := y.toNat_lt
    intro n hn
    simp only [sextets,List.mem_cons] at hn
    rcases hn with rfl | rfl | rfl | rfl | hn
    · omega
    · omega
    · have hz := z.toNat_lt
      omega
    · omega
    · exact ih n hn
  | case2 x y =>
    have hx := x.toNat_lt
    have hy := y.toNat_lt
    intro n hn
    simp only [sextets,List.mem_cons,List.not_mem_nil,or_false] at hn
    omega
  | case3 x =>
    have hx := x.toNat_lt
    intro n hn
    simp only [sextets,List.mem_cons,List.not_mem_nil,or_false] at hn
    omega
  | case4 =>
    intro n hn
    cases hn

theorem ofNat_join {x : UInt8} {k : ℕ} (h : k = x.toNat) : UInt8.ofNat k = x := by
  rw [h,UInt8.ofNat_toNat]

@[simp] theorem bytes_sextets (l : List UInt8) : bytes (sextets l) = l := by
  induction l using sextets.induct with
  | case1 x y z l ih =>
    have hy := y.toNat_lt
    have hz := z.toNat_lt
    simp only [sextets,bytes,ih]
    rw [ofNat_join (x:=x) (by omega),ofNat_join (x:=y) (by omega),ofNat_join (x:=z) (by omega)]
  | case2 x y =>
    have hy := y.toNat_lt
    simp only [sextets,bytes]
    rw [ofNat_join (x:=x) (by omega),ofNat_join (x:=y) (by omega)]
  | case3 x =>
    simp only [sextets,bytes]
    rw [ofNat_join (x:=x) (by omega)]
  | case4 => rfl

theorem filterMap_digits (l : List UInt8) : (digits l).filterMap value? = sextets l := by
  rw [digits,List.filterMap_map]
  have hsome : ∀ n ∈ sextets l, (value? ∘ char) n = some n := fun n hn => value?_char (sextets_lt l n hn)
  rw [List.filterMap_congr hsome,List.filterMap_some]

theorem filterMap_filling (n : ℕ) : (filling n).filterMap value? = [] := by
  have hnone : value? '=' = none := by decide
  simp [filling,hnone]

/-- Bytes are read back from their text. -/
@[simp] theorem decode_encode (l : List UInt8) : decode (encode l) = l := by
  rw [decode,encode,List.filterMap_append,filterMap_digits,filterMap_filling,List.append_nil,bytes_sextets]

theorem encode_inj (h : encode l = encode m) : l = m := by
  rw [← decode_encode l,h,decode_encode]

theorem mem_digits (h : c ∈ digits l) : c ∈ alphabet := by
  obtain ⟨n,hn,rfl⟩ := List.mem_map.mp h
  exact char_mem (sextets_lt l n hn)

theorem digits_ne_nil (h : l ≠ []) : digits l ≠ [] := by
  intro hnil
  have hsextets : sextets l = [] := List.map_eq_nil_iff.mp hnil
  have hbytes := bytes_sextets l
  rw [hsextets] at hbytes
  exact h hbytes.symm

theorem mem_encode (h : c ∈ encode l) : c ∈ alphabet ∨ c = '=' := by
  rcases List.mem_append.mp h with h | h
  · exact .inl (mem_digits h)
  · exact .inr (List.eq_of_mem_replicate h)

end Base64
