import Tp2cc.Machine.Real
import Tp2cc.Runtime.Arithmetic

/-! The helpers of `tp2cc_rt/prelude.h` for narrowing assignments. -/
set_option autoImplicit false

namespace Tp2cc.Rt
open Machine

section
variable {s : IntType}

/-- `tp2cc_range_check_assign` of an integer. The bounds of the destination are converted to the type
of the source, or to its unsigned twin, before they are compared. -/
def tp2ccRangeCheckAssign (t : IntType) (src : Word s) : Except RuntimeError (Word t) :=
  let outside :=
    if s.signed = t.signed then
      src.val < (Word.ofInt s t.lo).val ∨ (Word.ofInt s t.hi).val < src.val
    else if s.signed then
      src.val < 0 ∨ (Word.ofInt s.twin t.hi).val < (src.cast s.twin).val
    else ((Word.ofInt t.twin t.hi).cast s).val < src.val
  if outside then .error .rangeError else .ok (src.cast t)

/-- `tp2cc_range_check_assign` of a real value. There is no result when the cast is undefined. -/
def tp2ccRangeCheckAssignReal (precision : Nat) (t : IntType) (src : RealValue) :
    Option (Except RuntimeError (Word t)) :=
  if src.isNan || src.lt t.lo || src.gt (t.realHi precision) then some (.error .rangeError)
  else (src.toWord t).map .ok

def tp2ccRealToIntTrunc (precision : Nat) (t : IntType) (src : RealValue) : Option (Word t) :=
  if src.isNan || src.lt t.lo || src.gt (t.realHi precision) then some (.minimum t)
  else src.toWord t

theorem sameSign_outside {t : IntType} (hs : s.signed = t.signed) (hb : t.bits ≤ s.bits)
    (src : Word s) : (src.val < (Word.ofInt s t.lo).val ∨ (Word.ofInt s t.hi).val < src.val) ↔
      ¬t.Holds src.val := by
  have hwithin := IntType.within_of_same hs.symm hb
  have hlo := IntType.reduce_of_holds (hwithin.holds (Word.minimum t).mem)
  have hhi := IntType.reduce_of_holds (hwithin.holds (Word.maximum t).mem)
  rw [Word.ofInt_val, Word.ofInt_val, show s.reduce t.lo = t.lo from hlo,
    show s.reduce t.hi = t.hi from hhi]
  unfold IntType.Holds
  omega

theorem signedToUnsigned_outside {t : IntType} (hs : s.signed = true) (ht : t.signed = false)
    (src : Word s) :
    (src.val < 0 ∨ (Word.ofInt s.twin t.hi).val < (src.cast s.twin).val) ↔ ¬t.Holds src.val := by
  have hsrc := (IntType.holds_signed hs src.val).mp src.mem
  have hsplit := s.two_pow_split
  have hpos := IntType.two_pow_pos (s.bits-1)
  have hhi : (Word.ofInt s.twin t.hi).val = 2^(min t.bits s.bits)-1 := by
    rw [Word.ofInt_val, show t.hi = 2^t.bits-1 by simp [IntType.hi, ht]]
    exact IntType.reduce_ones (t := s.twin) rfl t.bits
  rw [hhi, IntType.holds_unsigned ht]
  by_cases hneg : src.val < 0
  · exact iff_of_true (.inl hneg) (by omega)
  · have htwin : s.twin.Holds src.val :=
      (IntType.holds_unsigned (t := s.twin) rfl _).mpr ⟨by omega, by
        rw [show s.twin.bits = s.bits from rfl]; omega⟩
    rw [Word.cast_val_of_holds htwin]
    by_cases hb : t.bits ≤ s.bits
    · rw [Nat.min_eq_left hb]
      omega
    · have hle := IntType.two_pow_mono (m := s.bits) (n := t.bits) (by omega)
      rw [Nat.min_eq_right (by omega)]
      omega

theorem unsignedToSigned_outside {t : IntType} (hs : s.signed = false) (ht : t.signed = true)
    (src : Word s) : ((Word.ofInt t.twin t.hi).cast s).val < src.val ↔ ¬t.Holds src.val := by
  have hsrc := (IntType.holds_unsigned hs src.val).mp src.mem
  have hsplit := t.two_pow_split
  have hpos := IntType.two_pow_pos (t.bits-1)
  have hhi : t.hi = 2^(t.bits-1)-1 := by simp [IntType.hi, ht]
  have htwin : t.twin.Holds t.hi :=
    (IntType.holds_unsigned (t := t.twin) rfl _).mpr ⟨t.holds_zero.2, by
      rw [show t.twin.bits = t.bits from rfl]; omega⟩
  have hmax : ((Word.ofInt t.twin t.hi).cast s).val = 2^(min (t.bits-1) s.bits)-1 := by
    rw [Word.cast_val, Word.ofInt_val, IntType.reduce_of_holds htwin, hhi]
    exact IntType.reduce_ones hs (t.bits-1)
  rw [hmax, IntType.holds_signed ht]
  by_cases hb : t.bits-1 ≤ s.bits
  · rw [Nat.min_eq_left hb]
    omega
  · have hle := IntType.two_pow_mono (m := s.bits) (n := t.bits-1) (by omega)
    rw [Nat.min_eq_right (by omega)]
    omega

/-- Where the source is as wide as the destination or differs in sign, the check is whether the
destination holds the value. -/
theorem tp2ccRangeCheckAssign_eq {t : IntType} (h : s.signed = t.signed → t.bits ≤ s.bits)
    (src : Word s) : tp2ccRangeCheckAssign t src =
      if t.Holds src.val then .ok (src.cast t) else .error .rangeError := by
  unfold tp2ccRangeCheckAssign
  cases hs : s.signed with
  | true =>
    cases ht : t.signed with
    | true =>
      have hout := sameSign_outside (hs.trans ht.symm) (h (hs.trans ht.symm)) src
      simp only [if_true, hout]
      split <;> simp_all
    | false =>
      have hout := signedToUnsigned_outside hs ht src
      simp only [Bool.true_eq_false, if_false, if_true, hout]
      split <;> simp_all
  | false =>
    cases ht : t.signed with
    | true =>
      have hout := unsignedToSigned_outside hs ht src
      simp only [Bool.false_eq_true, if_false, hout]
      split <;> simp_all
    | false =>
      have hout := sameSign_outside (hs.trans ht.symm) (h (hs.trans ht.symm)) src
      simp only [if_true, hout]
      split <;> simp_all

/-- The destination gets the number of the source, and the range error is raised where it cannot. -/
def ChecksRange (t : IntType) (src : Word s) : Prop :=
  (∀ w, tp2ccRangeCheckAssign t src = .ok w ↔ w.val = src.val) ∧
    (tp2ccRangeCheckAssign t src = .error .rangeError ↔ ¬t.Holds src.val)

theorem checksRange_of_eq {t : IntType} {src : Word s} (h : tp2ccRangeCheckAssign t src =
    if t.Holds src.val then .ok (src.cast t) else .error .rangeError) : ChecksRange t src := by
  unfold ChecksRange
  rw [h]
  by_cases hin : t.Holds src.val
  · simp only [hin, if_true]
    refine ⟨fun w => ?_, by simp⟩
    rw [Except.ok.injEq, Word.ext_iff, Word.cast_val_of_holds hin]
    exact eq_comm
  · simp only [hin, if_false]
    refine ⟨fun w => ?_, by simp⟩
    simp only [reduceCtorEq, false_iff]
    intro hw
    exact hin (hw ▸ w.mem)

theorem widerSigned_outside {t : IntType} (hs : s.signed = true) (ht : t.signed = true)
    (hb : s.bits < t.bits) (src : Word s) : tp2ccRangeCheckAssign t src = .error .rangeError := by
  have hd : (2 : Int)^s.bits ∣ 2^(t.bits-1) := pow_dvd_pow 2 (by omega)
  have hlo : s.reduce t.lo = 0 := by
    refine (IntType.reduce_congr ?_).trans (IntType.reduce_of_holds s.holds_zero)
    rw [show t.lo = -(2^(t.bits-1)) by simp [IntType.lo, ht], Int.emod_eq_zero_of_dvd (Int.dvd_neg.mpr hd),
      Int.zero_emod]
  have hminus : s.Holds (-1) := by
    rw [IntType.holds_signed hs]
    have := IntType.two_pow_pos (s.bits-1)
    omega
  have hhi : s.reduce t.hi = -1 := by
    refine (IntType.reduce_congr ?_).trans (IntType.reduce_of_holds hminus)
    obtain ⟨k, hk⟩ := hd
    rw [show t.hi = -1+2^(t.bits-1) by simp [IntType.hi, ht]; omega, hk, Int.add_mul_emod_self_left]
  unfold tp2ccRangeCheckAssign
  simp only [hs, ht, if_true, Word.ofInt_val, hlo, hhi]
  rw [if_pos (by omega)]

theorem widerUnsigned_inside {t : IntType} (hs : s.signed = false) (ht : t.signed = false)
    (hb : s.bits < t.bits) (src : Word s) : tp2ccRangeCheckAssign t src = .ok (src.cast t) := by
  have hlo : s.reduce t.lo = 0 := by
    rw [show t.lo = 0 by simp [IntType.lo, ht]]
    exact IntType.reduce_of_holds s.holds_zero
  have hhi : s.reduce t.hi = 2^s.bits-1 := by
    rw [show t.hi = 2^t.bits-1 by simp [IntType.hi, ht], IntType.reduce_ones hs,
      Nat.min_eq_right hb.le]
  have hsrc := (IntType.holds_unsigned hs src.val).mp src.mem
  unfold tp2ccRangeCheckAssign
  simp only [hs, ht, if_true, Word.ofInt_val, hlo, hhi]
  rw [if_neg (by omega)]

/-- The check is right for every pair of types but a signed one and a wider signed one. -/
theorem checksRange_iff (t : IntType) (src : Word s) :
    ChecksRange t src ↔ ¬(s.signed = true ∧ t.signed = true ∧ s.bits < t.bits) := by
  have hholds (hsign : s.signed = t.signed) (hb : s.bits < t.bits) : t.Holds src.val :=
    (IntType.within_of_same hsign hb.le).holds src.mem
  constructor
  · rintro ⟨_, herror⟩ ⟨hs, ht, hb⟩
    exact herror.mp (widerSigned_outside hs ht hb src) (hholds (hs.trans ht.symm) hb)
  · intro h
    apply checksRange_of_eq
    by_cases hb : s.signed = t.signed ∧ s.bits < t.bits
    · rw [if_pos (hholds hb.1 hb.2)]
      cases hs : s.signed with
      | true => exact absurd ⟨hs, hb.1.symm.trans hs, hb.2⟩ h
      | false => exact widerUnsigned_inside hs (hb.1.symm.trans hs) hb.2 src
    · exact tp2ccRangeCheckAssign_eq (fun hsign => by simp_all) src

theorem not_checksRange_shortint :
    ¬ChecksRange ⟨true, 32, IntType.thirtyTwo_pos⟩ (Word.ofInt ⟨true, 8, IntType.eight_pos⟩ 5) := by
  intro h
  exact absurd (h.2.mp (by decide)) (by decide)

end
end Tp2cc.Rt
