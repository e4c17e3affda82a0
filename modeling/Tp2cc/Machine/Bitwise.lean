import Tp2cc.Machine.Word
import Mathlib.Data.Int.Bitwise

/-! Bitwise operations on words agree with those on integers, whose two's complement
representation continues its sign bit without end. -/
set_option autoImplicit false

namespace Machine

theorem getLsbD_ofInt (n : Nat) (v : Int) (i : Nat) :
    (BitVec.ofInt n v).getLsbD i = (decide (i < n) && v.testBit i) := by
  cases v with
  | ofNat m =>
    rw [Int.ofNat_eq_natCast, BitVec.ofInt_natCast, BitVec.getLsbD_ofNat]
    rfl
  | negSucc m =>
    rw [BitVec.ofInt_negSucc_eq_not_ofNat, BitVec.getLsbD_not, BitVec.getLsbD_ofNat]
    by_cases h : i < n <;> simp [h, Int.testBit]

theorem ofInt_land (n : Nat) (v w : Int) :
    BitVec.ofInt n (Int.land v w) = BitVec.ofInt n v &&& BitVec.ofInt n w := by
  apply BitVec.eq_of_getLsbD_eq
  intro i hi
  rw [BitVec.getLsbD_and, getLsbD_ofInt, getLsbD_ofInt, getLsbD_ofInt, Int.testBit_land]
  simp [hi]

theorem ofInt_lor (n : Nat) (v w : Int) :
    BitVec.ofInt n (Int.lor v w) = BitVec.ofInt n v ||| BitVec.ofInt n w := by
  apply BitVec.eq_of_getLsbD_eq
  intro i hi
  rw [BitVec.getLsbD_or, getLsbD_ofInt, getLsbD_ofInt, getLsbD_ofInt, Int.testBit_lor]
  simp [hi]

theorem ofInt_lxor (n : Nat) (v w : Int) :
    BitVec.ofInt n (Int.xor v w) = BitVec.ofInt n v ^^^ BitVec.ofInt n w := by
  apply BitVec.eq_of_getLsbD_eq
  intro i hi
  rw [BitVec.getLsbD_xor, getLsbD_ofInt, getLsbD_ofInt, getLsbD_ofInt, Int.testBit_lxor]
  simp [hi]

theorem ofInt_eq_of_emod {n : Nat} {v w : Int} (h : v % 2^n = w % 2^n) :
    BitVec.ofInt n v = BitVec.ofInt n w := by
  apply BitVec.eq_of_toNat_eq
  simp only [BitVec.toNat_ofInt, Nat.cast_pow, Nat.cast_ofNat, h]

namespace Word
variable {t : IntType}

theorem toBits_ofInt (v : Int) : (ofInt t v).toBits = BitVec.ofInt t.bits v :=
  ofInt_eq_of_emod (t.reduce_emod v)

theorem ofBits_ofInt (v : Int) : ofBits t (BitVec.ofInt t.bits v) = ofInt t v := by
  refine ext (IntType.reduce_congr ?_)
  rw [BitVec.toInt_ofInt]
  exact_mod_cast Int.bmod_emod (x := v) (m := 2^t.bits)

theorem ofInt_land_ofInt (v w : Int) :
    (ofInt t v).land (ofInt t w) = ofInt t (Int.land v w) := by
  rw [land, toBits_ofInt, toBits_ofInt, ← ofInt_land, ofBits_ofInt]

theorem ofInt_lor_ofInt (v w : Int) : (ofInt t v).lor (ofInt t w) = ofInt t (Int.lor v w) := by
  rw [lor, toBits_ofInt, toBits_ofInt, ← ofInt_lor, ofBits_ofInt]

theorem ofInt_lxor_ofInt (v w : Int) : (ofInt t v).lxor (ofInt t w) = ofInt t (Int.xor v w) := by
  rw [lxor, toBits_ofInt, toBits_ofInt, ← ofInt_lxor, ofBits_ofInt]

end Word
end Machine
