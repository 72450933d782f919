import ZevraServer.Loops
import ZevraServer.Srp
import Mathlib.Data.Nat.Size

/-!
# `modPow` over BigInts

The `while` loop of `srp.service.ts` on integers of either sign. The remainder of BigInts
has the sign of the dividend, so the base is brought into range first; then each pass
halves the exponent, and the result times the power that is left stays the same modulo
the modulus.
-/

namespace ZevraServer

namespace BigInts

open Loops

structure ModPow where
  result : ℤ
  exponent : ℤ
  base : ℤ
  deriving DecidableEq, Repr

/-- One turn of the `while`. -/
def ModPow.pass (modulus : ℤ) (s : ModPow) : Pass ModPow ℤ :=
  if 0 < s.exponent then
    .next ⟨if s.exponent.tmod 2 = 1 then (s.result*s.base).tmod modulus else s.result,
      s.exponent >>> (1 : ℕ),(s.base*s.base).tmod modulus⟩
  else .leave s.result

def ModPow.start (base exponent modulus : ℤ) : ModPow :=
  ⟨1,exponent,((base.tmod modulus)+modulus).tmod modulus⟩

/-- `modPow`, if the loop is left within so many turns. -/
def modPow (fuel : ℕ) (base exponent modulus : ℤ) : Option ℤ :=
  run (ModPow.pass modulus) fuel (.start base exponent modulus)

/-- The result times the power that is left is the power that was asked for. -/
structure ModPow.Inv (modulus value : ℤ) (s : ModPow) : Prop where
  exponent : 0 ≤ s.exponent
  low : 0 ≤ s.result
  high : s.result < modulus
  base : 0 ≤ s.base
  power : s.result*s.base^s.exponent.toNat % modulus = value

/-- The bits of the exponent. -/
def ModPow.bits (s : ModPow) : ℕ := s.exponent.toNat.size

variable {modulus value : ℤ} {s : ModPow}

theorem toNat_shiftRight {e : ℤ} (he : 0 ≤ e) : (e >>> (1 : ℕ)).toNat = e.toNat/2 := by
  rw [Int.shiftRight_eq_div_pow]
  omega

theorem size_half_lt {n : ℕ} (hn : 0 < n) : (n/2).size < n.size := by
  have hpos : 0 < n.size := Nat.size_pos.mpr hn
  obtain ⟨k,hk⟩ : ∃ k, n.size = k+1 := ⟨n.size-1,by omega⟩
  have hlt : n < 2^(k+1) := Nat.size_le.mp hk.le
  have hhalf : (n/2).size ≤ k := by
    refine Nat.size_le.mpr ?_
    rw [pow_succ] at hlt
    omega
  omega

theorem ModPow.Inv.pass (hm : 2 ≤ modulus) (h : s.Inv modulus value) :
    Sound (ModPow.pass modulus) (ModPow.Inv modulus value) ModPow.bits (· = value) s := by
  have hpos : 0 < modulus := by omega
  by_cases he : 0 < s.exponent
  · have hhalf := toNat_shiftRight h.exponent
    have hsmaller : (s.exponent >>> (1 : ℕ)).toNat.size < s.exponent.toNat.size := by
      rw [hhalf]
      exact size_half_lt (by omega)
    have hshift : 0 ≤ s.exponent >>> (1 : ℕ) := by
      rw [Int.shiftRight_eq_div_pow]
      omega
    have hsquare : (s.base*s.base).tmod modulus = s.base*s.base % modulus :=
      Int.tmod_eq_emod_of_nonneg (mul_nonneg h.base h.base)
    have hlow : 0 ≤ s.base*s.base % modulus := Int.emod_nonneg _ hpos.ne'
    have hparity : s.exponent.tmod 2 = s.exponent % 2 := Int.tmod_eq_emod_of_nonneg h.exponent
    simp only [Sound,ModPow.pass,if_pos he,hsquare]
    refine ⟨?_,hsmaller⟩
    by_cases hodd : s.exponent.tmod 2 = 1
    · have hprod : (s.result*s.base).tmod modulus = s.result*s.base % modulus :=
        Int.tmod_eq_emod_of_nonneg (mul_nonneg h.low h.base)
      refine ⟨hshift,?_,?_,hlow,?_⟩
      · simp only [if_pos hodd,hprod]
        exact Int.emod_nonneg _ hpos.ne'
      · simp only [if_pos hodd,hprod]
        exact Int.emod_lt_of_pos _ hpos
      · simp only [if_pos hodd,hprod,hhalf]
        have hreduce : (s.result*s.base % modulus)*s.base^(2*(s.exponent.toNat/2)) ≡
            s.result*s.base*s.base^(2*(s.exponent.toNat/2)) [ZMOD modulus] :=
          (Int.mod_modEq _ _).mul_right _
        rw [Srp.half_power,hreduce.eq,mul_assoc,Srp.mul_half_power _ (by omega),h.power]
    · have hexp : 2*(s.exponent.toNat/2) = s.exponent.toNat := by omega
      refine ⟨hshift,?_,?_,hlow,?_⟩
      · simpa only [if_neg hodd] using h.low
      · simpa only [if_neg hodd] using h.high
      · simp only [if_neg hodd,hhalf]
        rw [Srp.half_power,hexp,h.power]
  · have hzero : s.exponent = 0 := le_antisymm (by omega) h.exponent
    have hpower := h.power
    simp only [Sound,ModPow.pass,if_neg he]
    rw [hzero,Int.toNat_zero,pow_zero,mul_one,Int.emod_eq_of_lt h.low h.high] at hpower
    exact hpower

/-- The first base is in range, whatever its sign. -/
theorem ModPow.Inv.start {base exponent : ℤ} (he : 0 ≤ exponent) (hm : 2 ≤ modulus) :
    (ModPow.start base exponent modulus).Inv modulus (base^exponent.toNat % modulus) := by
  have hpos : 0 < modulus := by omega
  have hbase : ((base.tmod modulus)+modulus).tmod modulus = base % modulus := by
    have hlift : (modulus.toNat : ℤ) = modulus := Int.toNat_of_nonneg hpos.le
    rw [← hlift]
    exact Srp.tmod_add_tmod base (by omega)
  refine ⟨he,Int.one_nonneg,?_,?_,?_⟩
  · show (1 : ℤ) < modulus
    omega
  · rw [ModPow.start,hbase]
    exact Int.emod_nonneg _ hpos.ne'
  · rw [ModPow.start,hbase,one_mul]
    exact (Int.mod_modEq base modulus).pow _

/-- One turn for each bit of the exponent and the last look at it: `modPow` is left with the
power, reduced. -/
theorem modPow_leaves (base : ℤ) {exponent : ℤ} (he : 0 ≤ exponent) (hm : 2 ≤ modulus) :
    Leaves (ModPow.pass modulus) (.start base exponent modulus) (exponent.toNat.size+1)
      (base^exponent.toNat % modulus) := by
  have hstart : (ModPow.start base exponent modulus).Inv modulus (base^exponent.toNat % modulus) :=
    ModPow.Inv.start he hm
  obtain ⟨r,hr,rfl⟩ := leaves_of_variant (fun _ h => ModPow.Inv.pass hm h) hstart
  exact hr

/-- `modPow` terminates with the power in the range of the modulus. -/
theorem modPow_terminates (base exponent modulus : ℤ) (he : 0 ≤ exponent) (hm : 2 ≤ modulus) :
    ∃ r, (∀ fuel, exponent.toNat.size < fuel → modPow fuel base exponent modulus = some r) ∧
      r = base^exponent.toNat % modulus ∧ 0 ≤ r ∧ r ≤ modulus-1 := by
  have hpos : 0 < modulus := by omega
  refine ⟨base^exponent.toNat % modulus,fun fuel hfuel => modPow_leaves base he hm fuel hfuel,rfl,
    Int.emod_nonneg _ hpos.ne',?_⟩
  have hlt := Int.emod_lt_of_pos (base^exponent.toNat) hpos
  omega

theorem modPow_terminates_negative :
    ∃ r, (∀ fuel, 5 < fuel → modPow fuel (-7) 19 23 = some r) ∧ r = (-7)^19 % 23 ∧ 0 ≤ r ∧ r ≤ 22 := by
  obtain ⟨r,hr,hpower,hlow,hhigh⟩ := modPow_terminates (-7) 19 23 (by decide) (by decide)
  have hbits : (19 : ℤ).toNat.size = 5 := by decide
  rw [hbits] at hr
  exact ⟨r,hr,hpower,hlow,by omega⟩

/-- On natural numbers this is the `modPow` of the login. -/
theorem modPow_natCast (base exponent : ℕ) {m : ℕ} (hm : 1 < m) :
    Leaves (ModPow.pass m) (.start base exponent m) (exponent.size+1) (Srp.modPow base exponent m) := by
  have he : 0 ≤ (exponent : ℤ) := Int.natCast_nonneg exponent
  have hm' : 2 ≤ (m : ℤ) := by omega
  have hleaves := modPow_leaves base he hm'
  rw [Srp.modPow_eq hm]
  push_cast
  simpa only [Int.toNat_natCast] using hleaves

end BigInts

end ZevraServer
