import Tp2cc.Analysis.BinaryOperation
import Tp2cc.Analysis.OrdinalStep

set_option autoImplicit false

namespace Tp2cc
open Machine Rt

inductive ConstBinOp where
  | add | sub | mul | intDiv | mod | and | or | xor | shl | shr
  deriving DecidableEq, Repr

def ConstBinOp.binOp : ConstBinOp → BinOp
  | .add => .add
  | .sub => .sub
  | .mul => .mul
  | .intDiv => .intDiv
  | .mod => .mod
  | .and => .and
  | .or => .or
  | .xor => .xor
  | .shl => .shl
  | .shr => .shr

def IntegerPrimitive.Plain (p : IntegerPrimitive) : Prop :=
  p.family = .integer ∧ p.kind ≠ .currency

instance (p : IntegerPrimitive) : Decidable p.Plain := inferInstanceAs (Decidable (_ ∧ _))

/-- The integer part of the expressions `eval_const_int_expr_impl` folds, with the calls resolved
to an intrinsic or to the integer type they cast to. -/
inductive ConstExpr (ι : Type) where
  | lit (value : Word cxxUInt64)
  | ident (name : ι)
  | unary (op : UnOp) (operand : ConstExpr ι)
  | binary (op : ConstBinOp) (lhs rhs : ConstExpr ι) (qCheck : Bool)
  | step (subtracts : Bool) (operand : ConstExpr ι) (qCheck rCheck : Bool)
  | cast (type : IntegerPrimitive) (plain : type.Plain) (operand : ConstExpr ι)

inductive Folded where
  | value (info : ConstIntExprInfo)
  | failed (overflow : Bool)
  deriving DecidableEq

namespace Folded

def value? : Folded → Option ConstIntExprInfo
  | value info => some info
  | failed _ => none

def overflow : Folded → Bool
  | value _ => false
  | failed overflow => overflow

def ofOption : Option ConstIntExprInfo → Folded
  | some info => value info
  | none => failed false

def bind : Folded → (ConstIntExprInfo → Folded) → Folded
  | value info, f => f info
  | failed overflow, _ => failed overflow

def bind₂ (lhs rhs : Folded) (f : ConstIntExprInfo → ConstIntExprInfo → Folded) : Folded :=
  match lhs, rhs with
  | value l, value r => f l r
  | _, _ => failed (lhs.overflow || rhs.overflow)

end Folded

def integerPrimitiveOfKind (kind : PrimitiveKind) : Option IntegerPrimitive :=
  if h : kind.info.intKind ≠ .none then some ⟨kind, h⟩ else none

def ConstIntExprInfo.primitive (info : ConstIntExprInfo) : Option IntegerPrimitive :=
  info.type.bind integerPrimitiveOfKind

def typeForValue (value : Word cxxInt64) : Option PrimitiveKind :=
  (primitiveInfoForValue value.val).map (·.kind)

def unsigned64Type : Option PrimitiveKind :=
  (ordinalIntegerPrimitive .unsigned 64).map (·.kind)

def foldSigned (value : Word cxxInt64) : ConstIntExprInfo := .ofValue value (typeForValue value)

def foldUnsigned (bits : Word cxxUInt64) : ConstIntExprInfo :=
  ⟨bits.cast cxxInt64, bits, unsigned64Type⟩

def foldLiteral (value : Word cxxUInt64) : ConstIntExprInfo :=
  if value.val > 2^63-1 then foldUnsigned value else foldSigned (value.cast cxxInt64)

def checkedSubInt64 (a b : Word cxxInt64) : Option (Word cxxInt64) :=
  if (b.val < 0 ∧ a.val > 2^63-1+b.val) ∨ (b.val > 0 ∧ a.val < -(2^63)+b.val) then none
  else some (a.sub b)

def foldUnary (op : UnOp) (operand : ConstIntExprInfo) : Folded :=
  match op with
  | .plus => .value operand
  | .not => .failed false
  | .neg =>
    match checkedSubInt64 (.ofInt _ 0) operand.value with
    | some value => .value (foldSigned value)
    | none => .failed true

def ConstIntExprInfo.isNegative (operand : ConstIntExprInfo) : Bool :=
  operand.value.val < 0 && !operand.isUnsigned

def ConstIntExprInfo.magnitude (operand : ConstIntExprInfo) : Word cxxUInt64 :=
  if operand.isNegative then (Word.ofInt _ 0).sub operand.bits else operand.bits

def makeResult (negative : Bool) (result : Word cxxUInt64) : Folded :=
  if negative then
    if result.val > 2^63 then .failed true
    else .value (foldSigned
      (if result.val = 2^63 then .minimum _ else (Word.ofInt _ 0).sub (result.cast cxxInt64)))
  else if result.val ≤ 2^63-1 then .value (foldSigned (result.cast cxxInt64))
  else .value (foldUnsigned result)

def addSignedMagnitudes (lhsNegative : Bool) (lhsMagnitude : Word cxxUInt64) (rhsNegative : Bool)
    (rhsMagnitude : Word cxxUInt64) : Folded :=
  if lhsNegative ≠ rhsNegative then
    if lhsMagnitude.val ≥ rhsMagnitude.val then
      makeResult lhsNegative (lhsMagnitude.sub rhsMagnitude)
    else makeResult rhsNegative (rhsMagnitude.sub lhsMagnitude)
  else if lhsMagnitude.val > 2^64-1-rhsMagnitude.val then .failed true
  else makeResult lhsNegative (lhsMagnitude.add rhsMagnitude)

section
variable (target : TargetInfo)

def checkedPascalShiftInt64 (shiftLeft : Bool) (a : Word cxxInt64) (carrier : IntegerPrimitive)
    (shift : Word cxxInt64) : Word cxxInt64 :=
  let bits := max (carrier.bits target) 32
  let amount := ((shift.cast cxxUInt64).land (.ofInt _ (bits-1))).val.toNat
  let valueBits : Word cxxUInt64 := .ofInt _ (lowBits (a.cast cxxUInt64).val bits)
  let shifted : Word cxxUInt64 :=
    if shiftLeft then .ofInt _ (lowBits (valueBits.shiftLeft amount).val bits)
    else valueBits.shiftRight amount
  if carrier.intKind = .unsigned ∨ bits = 64 then shifted.cast _
  else if shifted.val < 2^(bits-1) then shifted.cast _
  else (Word.ofInt cxxUInt64 (shifted.val+(2^64-2^bits))).cast _

def foldBinary (op : ConstBinOp) (kind : BoundBinaryKind) (lhs rhs : ConstIntExprInfo) : Folded :=
  let lm := lhs.magnitude
  let rm := rhs.magnitude
  match kind with
  | .integerCompare => .failed false
  | .integerAdd => addSignedMagnitudes lhs.isNegative lm rhs.isNegative rm
  | .integerSub => addSignedMagnitudes lhs.isNegative lm (!rhs.isNegative) rm
  | .integerMul =>
    if rm.val ≠ 0 ∧ lm.val > (2^64-1)/rm.val then .failed true
    else makeResult (lhs.isNegative != rhs.isNegative) (lm.mul rm)
  | .integerDiv =>
    if rm.val = 0 then .failed false
    else makeResult (lhs.isNegative != rhs.isNegative) (.ofInt _ (lm.val/rm.val))
  | .integerMod =>
    if rm.val = 0 then .failed false else makeResult lhs.isNegative (.ofInt _ (lm.val%rm.val))
  | .integerShift =>
    .ofOption do
      let type ← lhs.primitive
      let carrier ← shiftCarrierPrimitive target type
      return .ofValue (checkedPascalShiftInt64 target (op = .shl) lhs.value type rhs.value)
        (some carrier.kind)
  | .integerBitwise =>
    let l := lhs.value.cast cxxUInt64
    let r := rhs.value.cast cxxUInt64
    let bits := match op with
      | .and => l.land r
      | .or => l.lor r
      | _ => l.lxor r
    .value (foldSigned (bits.cast _))

/-- `ordinal_domain_for_type` of an integer primitive. Its bounds are `int64_t`. -/
def integerDomain (p : IntegerPrimitive) : Int × Int :=
  if p.intKind = .unsigned then
    (0, if p.bits target ≥ 64 then 2^63-1 else unsignedMaskForBits (p.bits target))
  else (signedMinForBits (p.bits target), signedMaxForBits (p.bits target))

def signExtend (bits : Word cxxUInt64) (width : Nat) : Word cxxInt64 :=
  if width ≥ 64 ∨ bits.val < 2^(width-1) then bits.cast _
  else (Word.ofInt cxxUInt64 (bits.val+(2^64-2^width))).cast _

def maskBits (bits : Word cxxUInt64) (width : Nat) : Word cxxUInt64 :=
  .ofInt _ (lowBits bits.val width)

section
variable (bound : BoundOrdinalStep)

def StepOverflows (bits : Word cxxUInt64) : Prop :=
  let width := bound.carrier.bits target
  let exact := bound.kind.apply (signExtend bits width).val 1
  bound.checkOverflow = true ∧ bound.carrier.intKind = .signed ∧
    ¬ (signedMinForBits width ≤ exact ∧ exact ≤ signedMaxForBits width)

instance (bits : Word cxxUInt64) : Decidable (StepOverflows target bound bits) :=
  inferInstanceAs (Decidable (_ ∧ _))

def steppedBits (bits : Word cxxUInt64) : Word cxxUInt64 :=
  let width := bound.carrier.bits target
  let one : Word cxxUInt64 := .ofInt _ 1
  maskBits
    (if bound.checkOverflow = true ∧ bound.carrier.intKind = .signed then
      .ofInt _ (bound.kind.apply (signExtend bits width).val 1)
     else if bound.kind.subtracts then bits.sub one else bits.add one) width

def StepOutOfRange (storage : IntegerPrimitive) (bits : Word cxxUInt64) : Prop :=
  let width := bound.carrier.bits target
  let domain := integerDomain target storage
  bound.checkRange = true ∧
    if bound.carrier.intKind = .signed then
      (signExtend bits width).val < domain.1 ∨ (signExtend bits width).val > domain.2
    else domain.1 < 0 ∨ bits.val > domain.2

instance (storage : IntegerPrimitive) (bits : Word cxxUInt64) :
    Decidable (StepOutOfRange target bound storage bits) := by
  unfold StepOutOfRange; infer_instance

def evalBoundOrdinalStep (storage : IntegerPrimitive) (source : ConstIntExprInfo) : Folded :=
  let bits := maskBits (convertConstIntValue target source bound.carrier).bits
    (bound.carrier.bits target)
  let stepped := steppedBits target bound bits
  if StepOverflows target bound bits then .failed true
  else if StepOutOfRange target bound storage stepped then .failed false
  else
    let result := maskBits stepped (storage.bits target)
    .value ⟨if storage.intKind = .signed then signExtend result (storage.bits target)
      else result.cast _, result, some storage.kind⟩

end

def evalConstIntCast (p : IntegerPrimitive) (operand : ConstIntExprInfo) : ConstIntExprInfo :=
  let converted := convertConstIntValue target operand p
  ⟨converted.value, converted.bits, some converted.type.kind⟩

/-- `bind_binary_operation`, on the types and the constants of the operands. -/
def bindConstBinary (op : ConstBinOp) (qCheck : Bool) (lhs rhs : Option IntegerPrimitive)
    (lhsConstant rhsConstant : Option ConstIntExprInfo) : Option BoundBinaryOperation := do
  bindBinaryOperation target op.binOp qCheck ⟨← lhs, lhsConstant⟩ ⟨← rhs, rhsConstant⟩

def BoundResult.primitive : BoundResult → Option IntegerPrimitive
  | .integer p => some p
  | .boolean => none

def stepKind (subtracts : Bool) : StepIntrinsic := if subtracts then .pred else .succ

def bindConstStep (subtracts qCheck rCheck : Bool) (operand : Option IntegerPrimitive) :
    Option (BoundOrdinalStep × IntegerPrimitive) := do
  let p ← operand
  if h : p.Plain then
    let bound ← bindOrdinalStep target (stepKind subtracts) qCheck rCheck (.integer p h.1 h.2) none
    return (bound, p)
  else none

/-- What the scope says of an identifier: the value it folds to and its Pascal type. -/
structure IdentEnv (ι : Type) where
  fold : ι → Folded
  type : ι → Option IntegerPrimitive

variable {ι : Type} (env : IdentEnv ι)

mutual

/-- `eval_const_int_expr_impl`. An operand of a step that does not fold here does not fold in
`eval_ordinal_expr` either, which runs the folder on it again. -/
def evalConstIntExpr : ConstExpr ι → Folded
  | .lit value => .value (foldLiteral value)
  | .ident name => env.fold name
  | .unary op operand => (evalConstIntExpr operand).bind (foldUnary op)
  | .binary op lhs rhs qCheck =>
    match bindConstBinary target op qCheck (deduceType lhs) (deduceType rhs)
      (evalConstIntExpr lhs).value? (evalConstIntExpr rhs).value? with
    | none => .failed false
    | some bound =>
      (evalConstIntExpr lhs).bind₂ (evalConstIntExpr rhs) (foldBinary target op bound.kind)
  | .step subtracts operand qCheck rCheck =>
    match bindConstStep target subtracts qCheck rCheck (deduceType operand) with
    | none => .failed false
    | some (bound, storage) =>
      (evalConstIntExpr operand).bind (evalBoundOrdinalStep target bound storage)
  | .cast p _ operand =>
    (evalConstIntExpr operand).bind fun a => .value (evalConstIntCast target p a)

/-- `deduce_type` on these expressions, as the primitive of the type. -/
def deduceType : ConstExpr ι → Option IntegerPrimitive
  | .lit value => (foldLiteral value).primitive
  | .ident name => env.type name
  | .unary op operand =>
    (((evalConstIntExpr operand).bind (foldUnary op)).value?.bind ConstIntExprInfo.primitive) <|>
      deduceType operand
  | .binary op lhs rhs qCheck => do
    let bound ← bindConstBinary target op qCheck (deduceType lhs) (deduceType rhs)
      (evalConstIntExpr lhs).value? (evalConstIntExpr rhs).value?
    bound.result.primitive
  | .step subtracts operand qCheck rCheck =>
    (bindConstStep target subtracts qCheck rCheck (deduceType operand)).map (·.2)
  | .cast p _ _ => some p

end

end

section
variable {target : TargetInfo}

theorem integerDomain_holds (p : IntegerPrimitive) :
    (integerDomain target p).1 ≤ (integerDomain target p).2 ∧
      (p.intType target).Holds (integerDomain target p).1 ∧
      (p.intType target).Holds (integerDomain target p).2 := by
  have hb := p.bits_cases target
  cases p.intKind_cases with
  | inl h =>
    rw [IntegerPrimitive.holds_of_signed h, IntegerPrimitive.holds_of_signed h]
    simp only [integerDomain, h, reduceCtorEq, if_false, signedMinForBits, signedMaxForBits]
    rcases hb with hb | hb | hb | hb <;> rw [hb] <;> omega
  | inr h =>
    rw [IntegerPrimitive.holds_of_unsigned h, IntegerPrimitive.holds_of_unsigned h]
    simp only [integerDomain, h, if_true, unsignedMaskForBits]
    rcases hb with hb | hb | hb | hb <;> rw [hb] <;> simp

theorem integerDomain_low (p : IntegerPrimitive) :
    (integerDomain target p).1 = (p.intType target).lo := by
  cases p.intKind_cases with
  | inl h => simp [integerDomain, h, IntType.lo, IntegerPrimitive.signed, signedMinForBits]
  | inr h => simp [integerDomain, h, IntType.lo, IntegerPrimitive.signed]

theorem integerDomain_high (p : IntegerPrimitive) :
    (integerDomain target p).2 = (p.intType target).hi ∨
      (p.intKind = .unsigned ∧ p.bits target = 64 ∧ (integerDomain target p).2 = 2^63-1 ∧
        (p.intType target).hi = 2^64-1) := by
  cases p.intKind_cases with
  | inl h => simp [integerDomain, h, IntType.hi, IntegerPrimitive.signed, signedMaxForBits]
  | inr h =>
    have hb := p.bits_cases target
    rcases hb with hb | hb | hb | hb <;>
      simp [integerDomain, h, hb, IntType.hi, IntegerPrimitive.signed, unsignedMaskForBits]

theorem mem_integerDomain {p : IntegerPrimitive} {v : Int} (hp : (p.intType target).Holds v)
    (hv : cxxInt64.Holds v) :
    (integerDomain target p).1 ≤ v ∧ v ≤ (integerDomain target p).2 := by
  constructor
  · rw [integerDomain_low]
    exact hp.1
  · rcases integerDomain_high p with h | ⟨-, -, h, -⟩
    · rw [h]
      exact hp.2
    · rw [h]
      exact hv.2

end

end Tp2cc
