import Tp2cc.Primitive
import Tp2cc.Runtime.Arithmetic

set_option autoImplicit false

namespace Tp2cc
open Machine Rt

def cxxInt64 : IntType := ⟨true, 64, IntType.sixtyFour_pos⟩

structure ConstIntExprInfo where
  value : Word cxxInt64
  bits : Word cxxUInt64
  type : Option PrimitiveKind
  deriving DecidableEq

namespace ConstIntExprInfo

/-- The two-argument constructor: `bits` is the value cast to `uint64_t`. -/
def ofValue (value : Word cxxInt64) (type : Option PrimitiveKind) : ConstIntExprInfo :=
  ⟨value, value.cast cxxUInt64, type⟩

def isUnsigned (info : ConstIntExprInfo) : Bool :=
  match info.type with
  | some k => k.info.intKind == .unsigned
  | none => false

def isSigned (info : ConstIntExprInfo) : Bool :=
  match info.type with
  | some k => k.info.intKind == .signed
  | none => false

def denote (info : ConstIntExprInfo) : Int :=
  if info.isUnsigned then info.bits.val else info.value.val

def Consistent (info : ConstIntExprInfo) : Prop := info.bits.val = cxxUInt64.reduce info.value.val

/-- What every folded constant satisfies, also one whose bits were masked to its storage:
it has an integer type, and a nonnegative value is its own bits. -/
structure Readable (info : ConstIntExprInfo) : Prop where
  typed : info.isSigned = !info.isUnsigned
  bits_of_nonneg : 0 ≤ info.value.val → info.bits.val = info.value.val
  nonneg_of_unsigned : info.isUnsigned = true → info.value.val = cxxInt64.reduce info.bits.val

end ConstIntExprInfo

theorem holds_int64 (v : Int) : cxxInt64.Holds v ↔ -(2^63) ≤ v ∧ v ≤ 2^63-1 := Iff.rfl
theorem holds_uint64 (v : Int) : cxxUInt64.Holds v ↔ 0 ≤ v ∧ v ≤ 2^64-1 := Iff.rfl

theorem int64_bounds (w : Word cxxInt64) : -(2^63) ≤ w.val ∧ w.val ≤ 2^63-1 := w.mem
theorem uint64_bounds (w : Word cxxUInt64) : 0 ≤ w.val ∧ w.val ≤ 2^64-1 := w.mem

theorem reduce_uint64_of_nonneg {v : Int} (h₁ : 0 ≤ v) (h₂ : v ≤ 2^64-1) :
    cxxUInt64.reduce v = v := IntType.reduce_of_holds ⟨h₁, h₂⟩

theorem reduce_uint64_of_neg {v : Int} (h₁ : -(2^64) ≤ v) (h₂ : v < 0) :
    cxxUInt64.reduce v = v+2^64 := by
  refine IntType.eq_of_emod (IntType.reduce_holds _ _) ⟨?_, ?_⟩ ?_
  · simp [IntType.lo, cxxUInt64]; omega
  · simp [IntType.hi, cxxUInt64]; omega
  · rw [IntType.reduce_emod]; simp [cxxUInt64]

theorem reduce_int64_of_small {v : Int} (h₁ : -(2^63) ≤ v) (h₂ : v ≤ 2^63-1) :
    cxxInt64.reduce v = v := IntType.reduce_of_holds ⟨h₁, h₂⟩

theorem reduce_int64_of_large {v : Int} (h₁ : 2^63 ≤ v) (h₂ : v ≤ 2^64-1) :
    cxxInt64.reduce v = v-2^64 := by
  refine IntType.eq_of_emod (IntType.reduce_holds _ _) ⟨?_, ?_⟩ ?_
  · simp [IntType.lo, cxxInt64]; omega
  · simp [IntType.hi, cxxInt64]; omega
  · rw [IntType.reduce_emod]; simp [cxxInt64]

section
variable (target : TargetInfo)

def constIntFitsPrimitive (value : ConstIntExprInfo) (p : IntegerPrimitive) : Bool :=
  let width := p.bits target
  if p.intKind = .unsigned then
    if value.isUnsigned then width ≥ 64 || value.bits.val ≤ unsignedMaskForBits width
    else value.value.val ≥ 0 &&
      (width ≥ 64 || (value.value.cast cxxUInt64).val ≤ unsignedMaskForBits width)
  else if value.isUnsigned then
    value.bits.val ≤ (if width ≥ 64 then 2^63-1 else signedMaxForBits width)
  else signedMinForBits width ≤ value.value.val && value.value.val ≤ signedMaxForBits width

theorem constIntFitsPrimitive_iff (value : ConstIntExprInfo) (p : IntegerPrimitive) :
    constIntFitsPrimitive target value p = true ↔ (p.intType target).Holds value.denote := by
  have hw := p.bits_cases target
  have hv := int64_bounds value.value
  have hb := uint64_bounds value.bits
  rcases p.intKind_cases with hk | hk
  · have hs : (p.intType target).signed = true := by simp [IntegerPrimitive.signed, hk]
    rw [IntType.holds_signed hs]
    simp only [constIntFitsPrimitive, hk, reduceCtorEq, if_false, ConstIntExprInfo.denote,
      IntegerPrimitive.intType_bits, signedMinForBits, signedMaxForBits]
    cases value.isUnsigned <;> rcases hw with hw | hw | hw | hw <;>
      simp [hw] <;> omega
  · have hs : (p.intType target).signed = false := by simp [IntegerPrimitive.signed, hk]
    rw [IntType.holds_unsigned hs]
    simp only [constIntFitsPrimitive, hk, if_true, ConstIntExprInfo.denote,
      IntegerPrimitive.intType_bits, unsignedMaskForBits, Word.cast_val]
    cases value.isUnsigned with
    | true => rcases hw with hw | hw | hw | hw <;> (simp [hw]; omega)
    | false =>
      by_cases h0 : 0 ≤ value.value.val
      · have hr := reduce_uint64_of_nonneg h0 (by omega)
        rcases hw with hw | hw | hw | hw
        · simp [hw, hr]
        · simp [hw, hr]
        · simp [hw, hr]
        · simp [hw, hr]
          omega
      · simp [h0]

structure ConvertedConstInt where
  value : Word cxxInt64
  bits : Word cxxUInt64
  type : IntegerPrimitive
  deriving DecidableEq

/-- `convert_const_int_value` without its diagnostic. The bits stay masked to the width of
the destination, also for a negative signed result. -/
def convertConstIntValue (value : ConstIntExprInfo) (info : IntegerPrimitive) :
    ConvertedConstInt :=
  let width := info.bits target
  let bits : Word cxxUInt64 := .ofInt _ (lowBits value.bits.val width)
  if info.intKind = .unsigned then ⟨bits.cast cxxInt64, bits, info⟩
  else if width = 64 then ⟨bits.cast cxxInt64, bits, info⟩
  else
    let signBit : Int := 2^(width-1)
    let converted : Word cxxInt64 :=
      if bits.val < signBit then bits.cast cxxInt64
      -- the bits above the width are set: bits | ~low_bits(UINT64_MAX, width)
      else (Word.ofInt cxxUInt64 (bits.val+(2^64-2^width))).cast cxxInt64
    ⟨converted, bits, info⟩

end
end Tp2cc
