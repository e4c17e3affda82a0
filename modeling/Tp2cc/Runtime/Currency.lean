import Tp2cc.Runtime.Arithmetic

/-! Integers as Currency, which is stored in ten-thousandths. -/
set_option autoImplicit false

namespace Tp2cc.Rt
open Machine

def tCurrency : IntType := ⟨true, 64, IntType.sixtyFour_pos⟩

/-- `__builtin_mul_overflow` on one type: whether the product overflows, and what is stored. -/
def builtinMulOverflow {t : IntType} (a b : Word t) : Bool × Word t :=
  (!decide (t.Holds (a.val*b.val)), a.mul b)

section
variable {s : IntType}

def currencyProduct (value : Word s) : Bool × Word tCurrency :=
  if s.signed then builtinMulOverflow (value.cast tCurrency) (.ofInt tCurrency 10000)
  else
    let (overflow, unsignedResult) :=
      builtinMulOverflow (value.cast tCurrency.twin) (.ofInt tCurrency.twin 10000)
    let overflow := overflow ||
      decide (((Word.maximum tCurrency).cast tCurrency.twin).val < unsignedResult.val)
    (overflow, tp2ccIntegerFromBits tCurrency unsignedResult)

def tp2ccIntegerToCurrency (checkOverflow checkRange : Bool) (value : Word s) :
    Except RuntimeError (Word tCurrency) :=
  let (overflow, result) := currencyProduct value
  if overflow = true ∧ checkOverflow = true then .error .intOverflow
  else if overflow = true ∧ checkRange = true then .error .rangeError
  else if checkOverflow = false ∧ checkRange = false then
    .ok (tp2ccIntegerFromBits tCurrency
      ((value.cast tCurrency.twin).mul (.ofInt tCurrency.twin 10000)))
  else .ok result

theorem tCurrency_holds (v : Int) : tCurrency.Holds v ↔ -(2^63) ≤ v ∧ v ≤ 2^63-1 := Iff.rfl
theorem tCurrencyTwin_holds (v : Int) : tCurrency.twin.Holds v ↔ 0 ≤ v ∧ v ≤ 2^64-1 := Iff.rfl

theorem currency_source (h64 : s.bits ≤ 64) :
    (s.signed = true → s.Within tCurrency) ∧ (s.signed = false → s.Within tCurrency.twin) :=
  ⟨fun hs => IntType.within_of_same hs h64, fun hs => IntType.within_of_same hs h64⟩

theorem currencyProduct_overflow (h64 : s.bits ≤ 64) (value : Word s) :
    (currencyProduct value).1 = true ↔ ¬ tCurrency.Holds (10000*value.val) := by
  obtain ⟨hsigned, hunsigned⟩ := currency_source h64
  have hscale : (Word.ofInt tCurrency 10000).val = 10000 := by decide
  have hscale' : (Word.ofInt tCurrency.twin 10000).val = 10000 := by decide
  unfold currencyProduct
  cases hs : s.signed with
  | true =>
    have hvalue := Word.cast_val_of_holds ((hsigned hs).holds value.mem)
    simp only [if_true, builtinMulOverflow, hvalue, hscale, Int.mul_comm value.val,
      Bool.not_eq_true', decide_eq_false_iff_not]
  | false =>
    have hmem := (hunsigned hs).holds value.mem
    have hvalue := Word.cast_val_of_holds hmem
    have hlimit : ((Word.maximum tCurrency).cast tCurrency.twin).val = 2^63-1 := by decide
    have hnonneg := ((tCurrencyTwin_holds _).mp hmem).1
    simp only [Bool.false_eq_true, if_false, builtinMulOverflow, hvalue, hscale', hlimit,
      Bool.or_eq_true, Bool.not_eq_true', decide_eq_false_iff_not, decide_eq_true_eq,
      Int.mul_comm value.val]
    by_cases hfits : tCurrency.twin.Holds (10000*value.val)
    · have hproduct : ((value.cast tCurrency.twin).mul (.ofInt tCurrency.twin 10000)).val =
          10000*value.val := by
        rw [Word.mul_val, hvalue, hscale', Int.mul_comm]
        exact IntType.reduce_of_holds hfits
      rw [hproduct, tCurrency_holds]
      have := (tCurrencyTwin_holds _).mp hfits
      simp only [hfits, not_true_eq_false, false_or]
      omega
    · have hlarge : ¬ tCurrency.Holds (10000*value.val) := by
        rw [tCurrencyTwin_holds] at hfits
        rw [tCurrency_holds]
        omega
      simp [hfits, hlarge]

theorem currencyProduct_val (value : Word s) :
    (currencyProduct value).2.val = tCurrency.reduce (10000*value.val) := by
  have hscale : tCurrency.reduce 10000 = 10000 := by decide
  have hreduce : tCurrency.reduce (tCurrency.reduce value.val*10000) =
      tCurrency.reduce (10000*value.val) := by
    have h := tCurrency.reduce_mul value.val 10000
    rwa [hscale, Int.mul_comm value.val] at h
  unfold currencyProduct
  cases hs : s.signed with
  | true =>
    simp only [if_true, builtinMulOverflow, Word.mul_val, Word.cast_val, Word.ofInt_val, hscale]
    exact hreduce
  | false =>
    simp only [Bool.false_eq_true, if_false, builtinMulOverflow, tp2ccIntegerFromBits,
      Word.cast_val, Word.mul_val, Word.ofInt_val, reduce_twin]
    rw [← tCurrency.reduce_mul, reduce_twin, reduce_twin, hscale]
    exact hreduce

theorem uncheckedProduct_val (value : Word s) :
    (tp2ccIntegerFromBits tCurrency
      ((value.cast tCurrency.twin).mul (.ofInt tCurrency.twin 10000))).val =
      tCurrency.reduce (10000*value.val) := by
  simp only [tp2ccIntegerFromBits, Word.cast_val, Word.mul_val, Word.ofInt_val, reduce_twin]
  rw [← tCurrency.reduce_mul, reduce_twin, reduce_twin, tCurrency.reduce_mul, Int.mul_comm]

/-- What the conversion of an integer has to give. -/
structure ScalesToCurrency (checkOverflow checkRange : Bool) (value : Word s) : Prop where
  exact : tCurrency.Holds (10000*value.val) → ∃ w,
    tp2ccIntegerToCurrency checkOverflow checkRange value = .ok w ∧ w.val = 10000*value.val
  raises : ¬ tCurrency.Holds (10000*value.val) → checkOverflow = true ∨ checkRange = true →
    ∃ e, tp2ccIntegerToCurrency checkOverflow checkRange value = .error e
  wraps : checkOverflow = false → checkRange = false → ∃ w,
    tp2ccIntegerToCurrency checkOverflow checkRange value = .ok w ∧
      w.val = (10000*value.val).bmod (2^64)

/-- Every integer of every type is scaled exactly, or raises, or wraps. -/
theorem scalesToCurrency (h64 : s.bits ≤ 64) (checkOverflow checkRange : Bool) (value : Word s) :
    ScalesToCurrency checkOverflow checkRange value := by
  have hflag := currencyProduct_overflow h64 value
  have hstored := currencyProduct_val value
  have hunchecked := uncheckedProduct_val value
  have hrun : tp2ccIntegerToCurrency checkOverflow checkRange value =
      if (currencyProduct value).1 = true ∧ checkOverflow = true then .error .intOverflow
      else if (currencyProduct value).1 = true ∧ checkRange = true then .error .rangeError
      else if checkOverflow = false ∧ checkRange = false then
        .ok (tp2ccIntegerFromBits tCurrency
          ((value.cast tCurrency.twin).mul (.ofInt tCurrency.twin 10000)))
      else .ok (currencyProduct value).2 := rfl
  refine ⟨fun hfits => ?_, fun hfits hcheck => ?_, fun hq hr => ?_⟩
  · have hclear : (currencyProduct value).1 = false := by simpa [hfits] using hflag
    rw [hrun, hclear]
    simp only [Bool.false_eq_true, false_and, if_false]
    split
    · exact ⟨_, rfl, hunchecked.trans (IntType.reduce_of_holds hfits)⟩
    · exact ⟨_, rfl, hstored.trans (IntType.reduce_of_holds hfits)⟩
  · rw [hrun]
    simp only [hflag.mpr hfits, true_and]
    rcases hcheck with h | h
    · exact ⟨.intOverflow, by simp [h]⟩
    · cases hq : checkOverflow
      · exact ⟨.rangeError, by simp [h]⟩
      · exact ⟨.intOverflow, by simp⟩
  · refine ⟨_, ?_, hunchecked⟩
    rw [hrun]
    simp [hq, hr]

theorem scalesToCurrency_qword :
    ScalesToCurrency false true (Word.maximum ⟨false, 64, IntType.sixtyFour_pos⟩) :=
  scalesToCurrency (by decide) _ _ _

end
end Tp2cc.Rt
