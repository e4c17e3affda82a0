import Tp2cc.Machine.Word
import Mathlib.Data.Rat.Floor

set_option autoImplicit false

namespace Machine

/-- A finite value is the number that it stands for. -/
inductive RealValue where
  | nan
  | infinite (negative : Bool)
  | finite (q : ℚ)
  deriving DecidableEq

namespace RealValue

def isNan : RealValue → Bool
  | .nan => true
  | _ => false

def lt : RealValue → ℚ → Bool
  | .nan, _ => false
  | .infinite negative, _ => negative
  | .finite q, b => q < b

def gt : RealValue → ℚ → Bool
  | .nan, _ => false
  | .infinite negative, _ => !negative
  | .finite q, b => b < q

end RealValue

def truncate (q : ℚ) : Int := if 0 ≤ q then ⌊q⌋ else ⌈q⌉

/-- `static_cast`, which is undefined where the truncated value is none of the type. -/
def RealValue.toWord (t : IntType) : RealValue → Option (Word t)
  | .finite q => if h : t.Holds (truncate q) then some ⟨truncate q, h⟩ else none
  | _ => none

namespace IntType
variable {t : IntType}

/-- The greatest value in a floating-point type. It has `n` ones in binary, and is rounded up when
the mantissa has fewer digits. -/
def realHi (precision : Nat) (t : IntType) : ℚ :=
  if (if t.signed then t.bits-1 else t.bits) ≤ precision then t.hi else t.hi+1

theorem hi_le_realHi (precision : Nat) (t : IntType) : (t.hi : ℚ) ≤ t.realHi precision := by
  by_cases h : (if t.signed then t.bits-1 else t.bits) ≤ precision
  · rw [realHi, if_pos h]
  · rw [realHi, if_neg h]
    linarith

theorem lo_lt_hi (t : IntType) : t.lo < t.hi := by
  have h₁ := t.hi_sub_lo
  have h₂ := t.two_pow_split
  have h₃ := two_pow_pos (t.bits-1)
  omega

theorem truncate_of_lt_lo {q : ℚ} (hq : q < t.lo) (h : t.Holds (truncate q)) :
    truncate q = t.lo := by
  have hlo : (t.lo : ℚ) ≤ 0 := by exact_mod_cast t.holds_zero.1
  have hneg : ¬0 ≤ q := by linarith
  have hceil : truncate q ≤ t.lo := by
    rw [truncate, if_neg hneg]
    exact Int.ceil_le.mpr hq.le
  exact le_antisymm hceil h.1

theorem hi_le_truncate {q : ℚ} (hq : t.hi ≤ q) : t.hi ≤ truncate q := by
  have hhi : (0 : ℚ) ≤ t.hi := by exact_mod_cast t.holds_zero.2
  rw [truncate, if_pos (hhi.trans hq)]
  exact Int.le_floor.mpr hq

theorem reduce_ones (hs : t.signed = false) (m : Nat) :
    t.reduce (2^m-1) = 2^(min m t.bits)-1 := by
  have hpos := two_pow_pos m
  by_cases hm : m ≤ t.bits
  · have hle := two_pow_mono hm
    rw [Nat.min_eq_left hm]
    exact reduce_of_holds ((holds_unsigned hs _).mpr ⟨by omega, by omega⟩)
  · have hm : t.bits ≤ m := by omega
    have hle := two_pow_pos t.bits
    rw [Nat.min_eq_right hm]
    refine eq_of_emod (t.reduce_holds _) ((holds_unsigned hs _).mpr ⟨by omega, le_refl _⟩) ?_
    rw [reduce_emod]
    obtain ⟨k, hk⟩ : (2 : Int)^t.bits ∣ 2^m := pow_dvd_pow 2 hm
    rw [hk, Int.emod_eq_emod_iff_emod_sub_eq_zero]
    have hsub : 2^t.bits*k-1-(2^t.bits-1) = 2^t.bits*(k-1) := by rw [Int.mul_sub]; omega
    rw [hsub]
    exact Int.mul_emod_right _ _

end IntType
end Machine
