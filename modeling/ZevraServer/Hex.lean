import Mathlib.Data.List.Basic
import Mathlib.Tactic.Common
import Mathlib.Tactic.Ring

/-!
# Hexadecimal numerals and byte strings

Texts are lists of characters. A numeral is written in lower case without leading
zeros and read in either case; a byte string is written with two digits for each byte,
and reading one stops at the first pair that is not two digits.
-/

namespace Hex

def digit? (c : Char) : Option ℕ :=
  if 48 ≤ c.toNat ∧ c.toNat ≤ 57 then some (c.toNat-48)
  else if 97 ≤ c.toNat ∧ c.toNat ≤ 102 then some (c.toNat-87)
  else if 65 ≤ c.toNat ∧ c.toNat ≤ 70 then some (c.toNat-55)
  else none

def isDigit (c : Char) : Bool := (digit? c).isSome

/-- The numeral of a number. -/
def numeral (n : ℕ) : List Char := Nat.toDigits 16 n

/-- The number a text of digits names after the digits read so far. -/
def read : ℕ → List Char → Option ℕ
  | n, [] => some n
  | n, c::s => (digit? c).bind fun d => read (16*n+d) s

/-- The number a nonempty text of digits names. -/
def value? (s : List Char) : Option ℕ := if s = [] then none else read 0 s

def encode : List UInt8 → List Char
  | [] => []
  | x::l => Nat.digitChar (x.toNat/16)::Nat.digitChar (x.toNat % 16)::encode l

def decode : List Char → List UInt8
  | a::b::s =>
    match digit? a, digit? b with
    | some x, some y => UInt8.ofNat (16*x+y)::decode s
    | _, _ => []
  | _ => []

theorem digit?_digitChar {d : ℕ} (h : d < 16) : digit? (Nat.digitChar d) = some d := by
  have hall : ∀ d < 16, digit? (Nat.digitChar d) = some d := by decide
  exact hall d h

theorem read_append (n : ℕ) (s t : List Char) :
    read n (s++t) = (read n s).bind fun m => read m t := by
  induction s generalizing n with
  | nil => rfl
  | cons c s ih =>
    simp only [List.cons_append,read,Option.bind_assoc]
    exact congrArg _ (funext fun d => ih _)

theorem read_numeral (n : ℕ) : read 0 (numeral n) = some n := by
  induction n using Nat.strong_induction_on with
  | h n ih =>
    by_cases hlt : n < 16
    · simp [numeral,Nat.toDigits_of_lt_base hlt,read,digit?_digitChar hlt]
    · have hdiv : n/16 < n := by omega
      have hmod : n % 16 < 16 := Nat.mod_lt _ (by omega)
      have hn : 16*(n/16)+n % 16 = n := Nat.div_add_mod n 16
      rw [numeral,Nat.toDigits_of_base_le (by omega) (by omega),read_append]
      have hrec := ih (n/16) hdiv
      rw [numeral] at hrec
      simp [hrec,read,digit?_digitChar hmod,hn]

theorem numeral_ne_nil (n : ℕ) : numeral n ≠ [] := Nat.toDigits_ne_nil

/-- A numeral names its number. -/
@[simp] theorem value?_numeral (n : ℕ) : value? (numeral n) = some n := by
  rw [value?,if_neg (numeral_ne_nil n),read_numeral]

theorem read_zeros (k : ℕ) (s : List Char) : read 0 (List.replicate k '0'++s) = read 0 s := by
  induction k with
  | zero => rfl
  | succ k ih =>
    have hzero : digit? '0' = some 0 := rfl
    simpa [List.replicate_succ,read,hzero] using ih

/-- Leading zeros do not change the number. -/
theorem value?_leftpad {k : ℕ} {s : List Char} (h : s ≠ []) :
    value? (s.leftpad k '0') = value? s := by
  have hne : s.leftpad k '0' ≠ [] := by simp [List.leftpad,h]
  rw [value?,value?,if_neg hne,if_neg h,List.leftpad,read_zeros]

theorem isDigit_of_read {n m : ℕ} {s : List Char} (h : read n s = some m) : s.all isDigit = true := by
  induction s generalizing n with
  | nil => rfl
  | cons c s ih =>
    obtain ⟨d,hd,hs⟩ := Option.bind_eq_some_iff.mp h
    simp [isDigit,hd,ih hs]

theorem all_isDigit_numeral (n : ℕ) : (numeral n).all isDigit = true :=
  isDigit_of_read (read_numeral n)

theorem length_numeral_le {n k : ℕ} (hk : 0 < k) (h : n < 16^k) : (numeral n).length ≤ k :=
  (Nat.length_toDigits_le_iff (by omega) hk).mpr h

theorem length_numeral_eq {n k : ℕ} (hk : 0 < k) (hlow : 16^k ≤ n) (hhigh : n < 16^(k+1)) :
    (numeral n).length = k+1 := by
  have hle := length_numeral_le (Nat.succ_pos k) hhigh
  have hnot : ¬ (numeral n).length ≤ k := by
    intro h
    have hlt := (Nat.length_toDigits_le_iff (by omega) hk).mp h
    exact absurd hlt (Nat.not_lt.mpr hlow)
  omega

@[simp] theorem length_encode (l : List UInt8) : (encode l).length = 2*l.length := by
  induction l with
  | nil => rfl
  | cons x l ih =>
    simp only [encode,List.length_cons,ih]
    ring

/-- Bytes are read back from their digits. -/
@[simp] theorem decode_encode (l : List UInt8) : decode (encode l) = l := by
  induction l with
  | nil => rfl
  | cons x l ih =>
    have hx : x.toNat < 256 := x.toNat_lt
    have hhigh : x.toNat/16 < 16 := by omega
    have hlow : x.toNat % 16 < 16 := by omega
    have hsum : 16*(x.toNat/16)+x.toNat % 16 = x.toNat := Nat.div_add_mod _ _
    simp [encode,decode,digit?_digitChar hhigh,digit?_digitChar hlow,hsum,ih]

theorem all_isDigit_encode (l : List UInt8) : (encode l).all isDigit = true := by
  induction l with
  | nil => rfl
  | cons x l ih =>
    have hx : x.toNat < 256 := x.toNat_lt
    have hhigh : x.toNat/16 < 16 := by omega
    have hlow : x.toNat % 16 < 16 := by omega
    simp [encode,isDigit,digit?_digitChar hhigh,digit?_digitChar hlow,ih]

theorem toNat_pair {a b : Char} {x y : ℕ} (ha : digit? a = some x) (hb : digit? b = some y) :
    (UInt8.ofNat (16*x+y)).toNat = 16*x+y := by
  have hlt : ∀ {c : Char} {d : ℕ}, digit? c = some d → d < 16 := by
    intro c d hc
    unfold digit? at hc
    split_ifs at hc <;> obtain rfl := Option.some.inj hc <;> omega
  have hx := hlt ha
  have hy := hlt hb
  rw [UInt8.toNat_ofNat']
  exact Nat.mod_eq_of_lt (by omega)

theorem exists_pair {a b : Char} {s : List Char} (h : (a::b::s).all isDigit = true) :
    ∃ x y, digit? a = some x ∧ digit? b = some y := by
  simp only [List.all_cons,Bool.and_eq_true,isDigit] at h
  obtain ⟨x,hx⟩ := Option.isSome_iff_exists.mp h.1
  obtain ⟨y,hy⟩ := Option.isSome_iff_exists.mp h.2.1
  exact ⟨x,y,hx,hy⟩

/-- An even number of digits without a pair is none. -/
theorem eq_nil_of_short {s : List Char} (h : ∀ a b t, s ≠ a::b::t) (hlen : s.length % 2 = 0) : s = [] := by
  cases s with
  | nil => rfl
  | cons a s =>
    cases s with
    | nil => simp at hlen
    | cons b s => exact absurd rfl (h a b s)

/-- An even number of digits is nothing or a pair and an even number of digits. -/
theorem pairs_induction {motive : List Char → Prop} (nil : motive [])
    (pair : ∀ a b s x y, digit? a = some x → digit? b = some y → motive s → motive (a::b::s)) :
    ∀ s : List Char, s.length % 2 = 0 → s.all isDigit = true → motive s := by
  intro s
  induction s using decode.induct with
  | case1 a b s x y hb ha ih =>
    intro hlen hs
    simp only [List.length_cons] at hlen
    simp only [List.all_cons,Bool.and_eq_true] at hs
    exact pair a b s x y ha hb (ih (by omega) hs.2.2)
  | case2 a b s hnot =>
    intro _ hs
    obtain ⟨x,y,hx,hy⟩ := exists_pair hs
    exact absurd hy (hnot x y hx)
  | case3 s hshort =>
    intro hlen _
    obtain rfl := eq_nil_of_short hshort hlen
    exact nil

/-- The bytes of an even number of digits determine the number. -/
theorem read_eq_foldl (n : ℕ) (s : List Char) (hlen : s.length % 2 = 0) (hs : s.all isDigit = true) :
    read n s = some ((decode s).foldl (fun n x => 256*n+x.toNat) n) := by
  refine pairs_induction (motive := fun s => ∀ n, read n s =
    some ((decode s).foldl (fun n x => 256*n+x.toNat) n)) (fun n => rfl) ?_ s hlen hs n
  intro a b s x y ha hb ih n
  have hsum : 16*(16*n+x)+y = 256*n+(16*x+y) := by ring
  have hbyte := toNat_pair ha hb
  simp only [read,decode,ha,hb,Option.bind_some,List.foldl_cons,hsum]
  rw [hbyte]
  exact ih _

/-- Pairs are read one after the other. -/
theorem decode_append (t s : List Char) (hlen : s.length % 2 = 0) (hs : s.all isDigit = true) :
    decode (s++t) = decode s++decode t := by
  refine pairs_induction (motive := fun s => decode (s++t) = decode s++decode t) rfl ?_ s hlen hs
  intro a b s x y ha hb ih
  simp only [List.cons_append,decode,ha,hb,ih]

theorem length_decode (s : List Char) (hlen : s.length % 2 = 0) (hs : s.all isDigit = true) :
    2*(decode s).length = s.length := by
  refine pairs_induction (motive := fun s => 2*(decode s).length = s.length) rfl ?_ s hlen hs
  intro a b s x y ha hb ih
  simp only [decode,ha,hb,List.length_cons]
  omega

end Hex
