import Tp2cc.Analysis.Carrier

/-! Binding of integer binary operations and the meaning of the C++ emitted for them. -/
set_option autoImplicit false

namespace Tp2cc
open Machine Rt

inductive BoundBinaryKind where
  | integerAdd | integerSub | integerMul | integerDiv | integerMod
  | integerBitwise | integerCompare | integerShift
  deriving DecidableEq, Repr

inductive BoundResult where
  | integer (p : IntegerPrimitive)
  | boolean
  deriving DecidableEq, Repr

structure BoundBinaryOperation where
  kind : BoundBinaryKind
  lhs : IntegerPrimitive
  rhs : IntegerPrimitive
  result : BoundResult
  checkOverflow : Bool
  constantBoolean : Option Bool
  deriving DecidableEq, Repr

def BinOp.isComparison : BinOp → Bool
  | .eq | .notEq | .lt | .gt | .ltEq | .gtEq => true
  | _ => false

def BinOp.ofOrdering : BinOp → Ordering → Bool
  | .eq, o => o == .eq
  | .notEq, o => o != .eq
  | .lt, o => o == .lt
  | .gt, o => o == .gt
  | .ltEq, o => o != .gt
  | .gtEq, o => o != .lt
  | _, _ => false

def compareConstantIntegers (op : BinOp) (lhs rhs : OperandInfo) : Option Bool := do
  let l ← lhs.constant
  let r ← rhs.constant
  let lhsNegative := l.isSigned && l.value.val < 0
  let rhsNegative := r.isSigned && r.value.val < 0
  let order :=
    if lhsNegative ≠ rhsNegative then if lhsNegative then .lt else .gt
    else if lhsNegative then compare l.value.val r.value.val
    else compare l.bits.val r.bits.val
  if op.isComparison then some (op.ofOrdering order) else none

section
variable (target : TargetInfo)

def shiftCarrierPrimitive (info : IntegerPrimitive) : Option IntegerPrimitive :=
  if info.bits target ≥ 64 then some info else ordinalIntegerPrimitive info.intKind 32

/-- The integer part of `bind_binary_operation`, on operands that already have their canonical
primitive. For a subrange `canonicalize_for_arithmetic` picks that primitive by the high bound and the
sign of the low one, so values of the operand may lie outside it. -/
def bindBinaryOperation (op : BinOp) (qCheck : Bool) (lhs rhs : OperandInfo) :
    Option BoundBinaryOperation :=
  let l := lhs.primitive
  let r := rhs.primitive
  let carried (kind : BoundBinaryKind) (carrier : IntegerPrimitive) : BoundBinaryOperation :=
    ⟨kind, carrier, carrier, .integer carrier, qCheck, none⟩
  if l.family ≠ .integer ∨ r.family ≠ .integer then none
  else if l.kind = .currency ∨ r.kind = .currency then none
  else match op with
    | .add => (integerArithmeticPrimitive target op l r).map (carried .integerAdd)
    | .sub => (integerArithmeticPrimitive target op l r).map (carried .integerSub)
    | .mul => (integerArithmeticPrimitive target op l r).map (carried .integerMul)
    | .intDiv => (integerDivisionPrimitive target lhs rhs).map (carried .integerDiv)
    | .mod => (integerDivisionPrimitive target lhs rhs).map (carried .integerMod)
    | .and | .or | .xor => (integerBitwisePrimitive target op l r).map (carried .integerBitwise)
    | .eq | .notEq | .lt | .gt | .ltEq | .gtEq =>
      (integerComparisonPrimitive target lhs rhs).map fun carrier =>
        ⟨.integerCompare, carrier, carrier, .boolean, qCheck, compareConstantIntegers op lhs rhs⟩
    | .shl | .shr => do
      let carrier ← shiftCarrierPrimitive target l
      let amount ← defaultIntegerPrimitive target .signed
      return ⟨.integerShift, carrier, amount, .integer carrier, qCheck, none⟩
    | _ => none

def BoundResult.intType : BoundResult → IntType
  | .integer p => p.intType target
  | .boolean => cxxBool

end

inductive CxxValue where
  | int (value : Int)
  | bool (value : Bool)
  deriving DecidableEq, Repr

section
variable (target : TargetInfo)

/-- `bound_operand`: the cast is left out where source and destination are one type, and
there it would change nothing (`Word.cast_self`). -/
def boundOperand {s : IntType} (value : Word s) (carrier : IntegerPrimitive) :
    Word (carrier.intType target) := value.cast _

/-- What the C++ emitted for a bound operation evaluates to. A helper takes its template
argument from the result, so an operand passed to it is converted once more. -/
def binaryToCxx {s t : IntType} (op : BinOp) (bound : BoundBinaryOperation)
    (lhs : Word s) (rhs : Word t) : Except RuntimeError CxxValue :=
  let l : Word (bound.lhs.intType target) := boundOperand target lhs bound.lhs
  let r : Word (bound.rhs.intType target) := boundOperand target rhs bound.rhs
  let R := bound.result.intType target
  let int (w : Except RuntimeError (Word R)) : Except RuntimeError CxxValue :=
    w.map fun w => .int w.val
  match bound.kind with
  | .integerAdd =>
    int (if bound.checkOverflow then tp2ccAddChecked (l.cast R) (r.cast R)
      else .ok (tp2ccWrapAdd (l.cast R) (r.cast R)))
  | .integerSub =>
    int (if bound.checkOverflow then tp2ccSubChecked (l.cast R) (r.cast R)
      else .ok (tp2ccWrapSub (l.cast R) (r.cast R)))
  | .integerMul =>
    int (if bound.checkOverflow then tp2ccMulChecked (l.cast R) (r.cast R)
      else .ok (tp2ccWrapMul (l.cast R) (r.cast R)))
  | .integerDiv => int (tp2ccIntDiv bound.checkOverflow (l.cast R) (r.cast R))
  | .integerMod => int (tp2ccIntMod (l.cast R) (r.cast R))
  | .integerShift =>
    int (.ok (if op = .shl then pShl R l r else pShr R l r))
  | .integerBitwise =>
    int (.ok (match op with
      | .and => (l.cast R).land (r.cast R)
      | .or => (l.cast R).lor (r.cast R)
      | _ => (l.cast R).lxor (r.cast R)))
  | .integerCompare =>
    match bound.constantBoolean with
    | some b => .ok (.bool b)
    -- both operands have the carrier's type, so C++ compares their values
    | none => .ok (.bool (op.ofOrdering (compare l.val r.val)))

end

section
variable {target : TargetInfo}

def BinOp.compares (op : BinOp) (l r : Int) : Bool :=
  match op with
  | .eq => l = r
  | .notEq => l ≠ r
  | .lt => l < r
  | .gt => r < l
  | .ltEq => l ≤ r
  | .gtEq => r ≤ l
  | _ => false

/-- The exact result where the carrier holds it; else overflow under checks in a signed
carrier, and the wrapped result otherwise. -/
def carriedResult (t : IntType) (checkOverflow : Bool) (exact : Int) :
    Except RuntimeError CxxValue :=
  if t.Holds exact then .ok (.int exact)
  else if checkOverflow = true ∧ t.signed = true then .error .intOverflow
  else .ok (.int (t.reduce exact))

/-- What Pascal asks of an operation carried out in the type `t`. -/
def pascalBinary (t : IntType) (checkOverflow : Bool) (op : BinOp) (l r : Int) :
    Except RuntimeError CxxValue :=
  match op with
  | .add => carriedResult t checkOverflow (l+r)
  | .sub => carriedResult t checkOverflow (l-r)
  | .mul => carriedResult t checkOverflow (l*r)
  -- the minimum divided by minus one is the only quotient outside the carrier
  | .intDiv => if r = 0 then .error .divByZero else carriedResult t checkOverflow (l.tdiv r)
  | .mod => if r = 0 then .error .divByZero else .ok (.int (l.tmod r))
  | op => .ok (.bool (op.compares l r))

theorem BinOp.ofOrdering_compare (op : BinOp) (l r : Int) :
    op.ofOrdering (compare l r) = op.compares l r := by
  rcases lt_trichotomy l r with h | h | h
  · have hc : compare l r = .lt := compare_lt_iff_lt.mpr h
    cases op <;> simp [ofOrdering, compares, hc, h, h.ne, h.le, h.not_gt, h.not_ge]
  · subst h
    cases op <;> simp [ofOrdering, compares]
  · have hc : compare l r = .gt := compare_gt_iff_gt.mpr h
    cases op <;> simp [ofOrdering, compares, hc, h, h.ne', h.le, h.not_gt, h.not_ge]

theorem ConstIntExprInfo.Readable.denote_of_negative {c : ConstIntExprInfo} (h : c.Readable)
    (hn : (c.isSigned && decide (c.value.val < 0)) = true) :
    c.denote = c.value.val ∧ c.value.val < 0 := by
  have ht := h.typed
  cases hu : c.isUnsigned <;> simp_all [denote]

theorem ConstIntExprInfo.Readable.denote_of_not_negative {c : ConstIntExprInfo} (h : c.Readable)
    (hn : (c.isSigned && decide (c.value.val < 0)) = false) :
    c.denote = c.bits.val ∧ 0 ≤ c.bits.val := by
  refine ⟨?_, (uint64_bounds c.bits).1⟩
  have ht := h.typed
  have hb := h.bits_of_nonneg
  cases hu : c.isUnsigned <;> simp_all [denote]

theorem compareConstantIntegers_eq {op : BinOp} (hop : op.isComparison = true)
    {lhs rhs : OperandInfo} {a b : ConstIntExprInfo} (hl : lhs.constant = some a)
    (hr : rhs.constant = some b) (ha : a.Readable) (hb : b.Readable) :
    compareConstantIntegers op lhs rhs = some (op.compares a.denote b.denote) := by
  simp only [compareConstantIntegers, hl, hr, Option.bind_eq_bind, Option.bind_some, hop, if_true,
    ← BinOp.ofOrdering_compare]
  congr 2
  cases hn : (a.isSigned && decide (a.value.val < 0)) with
  | true =>
    obtain ⟨h₁, h₂⟩ := ha.denote_of_negative hn
    cases hm : (b.isSigned && decide (b.value.val < 0)) with
    | true =>
      obtain ⟨h₃, h₄⟩ := hb.denote_of_negative hm
      simp [h₁, h₃]
    | false =>
      obtain ⟨h₃, h₄⟩ := hb.denote_of_not_negative hm
      simpa [h₁, h₃] using (compare_lt_iff_lt.mpr (by omega : a.value.val < b.bits.val)).symm
  | false =>
    obtain ⟨h₁, h₂⟩ := ha.denote_of_not_negative hn
    cases hm : (b.isSigned && decide (b.value.val < 0)) with
    | true =>
      obtain ⟨h₃, h₄⟩ := hb.denote_of_negative hm
      simpa [h₁, h₃] using (compare_gt_iff_gt.mpr (by omega : b.value.val < a.bits.val)).symm
    | false =>
      obtain ⟨h₃, h₄⟩ := hb.denote_of_not_negative hm
      simp [h₁, h₃]

theorem carriedResult_of_holds {t : IntType} {exact : Int} (h : t.Holds exact) (q : Bool) :
    carriedResult t q exact = .ok (.int exact) := by
  simp [carriedResult, h]

theorem checkedResult_carried (t : IntType) (q : Bool) (exact : Int) :
    (if q = true then checkedResult t exact else .ok (.ofInt t exact)).map
      (fun w => CxxValue.int w.val) = carriedResult t q exact := by
  by_cases h : t.Holds exact
  · have hw := Word.ofInt_of_holds h
    rw [carriedResult_of_holds h, checkedResult_of_holds h, hw, ite_self]
    rfl
  · cases q with
    | false => simp [carriedResult, h, Except.map]
    | true => cases hs : t.signed <;> simp [carriedResult, checkedResult, h, hs, Except.map]

theorem boundOperand_val {s : IntType} {value : Word s} {c : IntegerPrimitive}
    (h : (c.intType target).Holds value.val) : (boundOperand target value c).val = value.val :=
  Word.cast_val_of_holds h

section
variable {s t : IntType} {c : IntegerPrimitive} {lhs : Word s} {rhs : Word t}

theorem parameter_val {value : Word s} (h : (c.intType target).Holds value.val) :
    ((boundOperand target value c).cast (c.intType target)).val = value.val := by
  rw [Word.cast_self, boundOperand_val h]

theorem binaryToCxx_add (op : BinOp) (q : Bool) (hl : (c.intType target).Holds lhs.val)
    (hr : (c.intType target).Holds rhs.val) :
    binaryToCxx target op ⟨.integerAdd, c, c, .integer c, q, none⟩ lhs rhs =
      carriedResult (c.intType target) q (lhs.val+rhs.val) := by
  rw [← checkedResult_carried]
  simp only [binaryToCxx, BoundResult.intType, tp2ccAddChecked, parameter_val hl,
    parameter_val hr, tp2ccWrapAdd_eq (c.intType_bits_le target), Word.add]

theorem binaryToCxx_sub (op : BinOp) (q : Bool) (hl : (c.intType target).Holds lhs.val)
    (hr : (c.intType target).Holds rhs.val) :
    binaryToCxx target op ⟨.integerSub, c, c, .integer c, q, none⟩ lhs rhs =
      carriedResult (c.intType target) q (lhs.val-rhs.val) := by
  rw [← checkedResult_carried]
  simp only [binaryToCxx, BoundResult.intType, tp2ccSubChecked, parameter_val hl,
    parameter_val hr, tp2ccWrapSub_eq (c.intType_bits_le target), Word.sub]

theorem binaryToCxx_mul (op : BinOp) (q : Bool) (hl : (c.intType target).Holds lhs.val)
    (hr : (c.intType target).Holds rhs.val) :
    binaryToCxx target op ⟨.integerMul, c, c, .integer c, q, none⟩ lhs rhs =
      carriedResult (c.intType target) q (lhs.val*rhs.val) := by
  rw [← checkedResult_carried]
  simp only [binaryToCxx, BoundResult.intType, tp2ccMulChecked, parameter_val hl,
    parameter_val hr, tp2ccWrapMul_eq (c.intType_bits_le target), Word.mul]

theorem minimum_tdiv {r : IntType} (hs : r.signed = true) :
    ¬ r.Holds (r.lo.tdiv (-1)) ∧ r.reduce (r.lo.tdiv (-1)) = r.lo := by
  have hlo : r.lo = -(2^(r.bits-1)) := by simp [IntType.lo, hs]
  have he : r.lo.tdiv (-1) = 2^(r.bits-1) := by rw [hlo, Int.tdiv_neg, Int.tdiv_one, neg_neg]
  have h2 := r.two_pow_split
  have hp := IntType.two_pow_pos (r.bits-1)
  rw [he]
  constructor
  · rw [IntType.holds_signed hs]; omega
  · refine IntType.eq_of_emod (r.reduce_holds _) ⟨le_refl _, ?_⟩ ?_
    · exact (r.holds_zero.1).trans r.holds_zero.2
    · rw [IntType.reduce_emod, hlo, h2, ← Int.add_mul_emod_self_left (-(2^(r.bits-1))) _ 1]
      congr 1; omega

theorem tp2ccIntDiv_carried {r : IntType} (q : Bool) (a b : Word r) :
    (tp2ccIntDiv q a b).map (fun w => CxxValue.int w.val) =
      if b.val = 0 then .error .divByZero else carriedResult r q (a.val.tdiv b.val) := by
  by_cases hb : b.val = 0
  · simp [tp2ccIntDiv, hb, Except.map]
  by_cases hm : r.signed = true ∧ a.val = r.lo ∧ b.val = -1
  · obtain ⟨hs, ha, hb'⟩ := hm
    obtain ⟨h₁, h₂⟩ := minimum_tdiv hs
    rw [if_neg hb, carriedResult, ha, hb', if_neg h₁, h₂]
    cases q <;> simp [tp2ccIntDiv, hs, ha, hb', reduce_neg_one hs, Except.map]
  · obtain ⟨w, hw, hv⟩ := tp2ccIntDiv_val q hb hm
    rw [hw, if_neg hb, carriedResult_of_holds (tdiv_holds a.mem b.mem hm), ← hv]
    rfl

theorem binaryToCxx_div (op : BinOp) (q : Bool) (hl : (c.intType target).Holds lhs.val)
    (hr : (c.intType target).Holds rhs.val) :
    binaryToCxx target op ⟨.integerDiv, c, c, .integer c, q, none⟩ lhs rhs =
      if rhs.val = 0 then .error .divByZero
      else carriedResult (c.intType target) q (lhs.val.tdiv rhs.val) := by
  simp only [binaryToCxx, BoundResult.intType]
  rw [tp2ccIntDiv_carried, parameter_val hl, parameter_val hr]

theorem tp2ccIntMod_carried {r : IntType} (a b : Word r) :
    (tp2ccIntMod a b).map (fun w => CxxValue.int w.val) =
      if b.val = 0 then .error .divByZero else .ok (.int (a.val.tmod b.val)) := by
  by_cases hb : b.val = 0
  · simp [tp2ccIntMod, hb, Except.map]
  · obtain ⟨w, hw, hv⟩ := tp2ccIntMod_val (a := a) hb
    rw [hw, if_neg hb, ← hv]
    rfl

theorem binaryToCxx_mod (op : BinOp) (q : Bool) (hl : (c.intType target).Holds lhs.val)
    (hr : (c.intType target).Holds rhs.val) :
    binaryToCxx target op ⟨.integerMod, c, c, .integer c, q, none⟩ lhs rhs =
      if rhs.val = 0 then .error .divByZero else .ok (.int (lhs.val.tmod rhs.val)) := by
  simp only [binaryToCxx, BoundResult.intType]
  rw [tp2ccIntMod_carried, parameter_val hl, parameter_val hr]

end

theorem binaryToCxx_compare {op : BinOp} (hop : op.isComparison = true) (q : Bool)
    {lhs rhs : Operand target} {c : IntegerPrimitive}
    (hl : (c.intType target).Holds lhs.value.val) (hr : (c.intType target).Holds rhs.value.val) :
    binaryToCxx target op ⟨.integerCompare, c, c, .boolean, q,
        compareConstantIntegers op lhs.toOperandInfo rhs.toOperandInfo⟩ lhs.value rhs.value =
      .ok (.bool (op.compares lhs.value.val rhs.value.val)) := by
  simp only [binaryToCxx]
  cases hcl : lhs.constant with
  | none => simp [compareConstantIntegers, hcl, boundOperand_val, hl, hr, BinOp.ofOrdering_compare]
  | some a =>
    cases hcr : rhs.constant with
    | none =>
      simp [compareConstantIntegers, hcl, hcr, boundOperand_val, hl, hr,
        BinOp.ofOrdering_compare]
    | some b =>
      obtain ⟨ha, hva⟩ := lhs.folds a hcl
      obtain ⟨hb, hvb⟩ := rhs.folds b hcr
      rw [compareConstantIntegers_eq hop hcl hcr ha hb, hva, hvb]

/-- The operands for which the carrier is promised to hold both values: no unsigned 64-bit
type meets a signed one, or a constant operand removes the conflict. -/
def CarrierSafe (op : BinOp) (lhs rhs : Operand target) : Prop :=
  ¬ UnsignedMeetsSigned target lhs.primitive rhs.primitive ∨
    (op.isComparison = true ∧
      (lhs.fits target rhs.primitive = true ∨ rhs.fits target lhs.primitive = true)) ∨
    ((op = .intDiv ∨ op = .mod) ∧ (lhs.IsSmallConstant ∨ rhs.IsSmallConstant))

/-- What binding owes to an operation: one carrier for both operands that holds both values,
and emitted code that computes the Pascal operation in that carrier. -/
structure BoundExactly (target : TargetInfo) (op : BinOp) (qCheck : Bool)
    (lhs rhs : Operand target) (bound : BoundBinaryOperation) (c : IntegerPrimitive) : Prop where
  lhs_carrier : bound.lhs = c
  rhs_carrier : bound.rhs = c
  lhs_held : (c.intType target).Holds lhs.value.val
  rhs_held : (c.intType target).Holds rhs.value.val
  lhs_unchanged : (boundOperand target lhs.value c).val = lhs.value.val
  rhs_unchanged : (boundOperand target rhs.value c).val = rhs.value.val
  meaning : binaryToCxx target op bound lhs.value rhs.value =
    pascalBinary (c.intType target) qCheck op lhs.value.val rhs.value.val

theorem BoundExactly.of_held {op : BinOp} {q : Bool} {lhs rhs : Operand target}
    {bound : BoundBinaryOperation} {c : IntegerPrimitive} (h₁ : bound.lhs = c)
    (h₂ : bound.rhs = c) (hl : (c.intType target).Holds lhs.value.val)
    (hr : (c.intType target).Holds rhs.value.val)
    (hm : binaryToCxx target op bound lhs.value rhs.value =
      pascalBinary (c.intType target) q op lhs.value.val rhs.value.val) :
    BoundExactly target op q lhs rhs bound c :=
  ⟨h₁, h₂, hl, hr, boundOperand_val hl, boundOperand_val hr, hm⟩

theorem integerArithmeticPrimitive_holds {op : BinOp} {lhs rhs : Operand target}
    {c : IntegerPrimitive}
    (h : integerArithmeticPrimitive target op lhs.primitive rhs.primitive = some c)
    (hx : ¬ UnsignedMeetsSigned target lhs.primitive rhs.primitive) :
    (c.intType target).Holds lhs.value.val ∧ (c.intType target).Holds rhs.value.val := by
  obtain ⟨hl, hr⟩ := integerArithmeticPrimitive_carries h hx
  exact ⟨hl.holds lhs.value.mem, hr.holds rhs.value.mem⟩

theorem Operand.guards (lhs rhs : Operand target) :
    ¬ (lhs.primitive.family ≠ .integer ∨ rhs.primitive.family ≠ .integer) ∧
      ¬ (lhs.primitive.kind = .currency ∨ rhs.primitive.kind = .currency) := by
  simp [lhs.isInteger, rhs.isInteger, lhs.notCurrency, rhs.notCurrency]

theorem bindArithmetic_exact {op : BinOp} (hop : op = .add ∨ op = .sub ∨ op = .mul) (q : Bool)
    {lhs rhs : Operand target} (hx : CarrierSafe op lhs rhs) :
    ∃ bound c, bindBinaryOperation target op q lhs.toOperandInfo rhs.toOperandInfo = some bound ∧
      BoundExactly target op q lhs rhs bound c := by
  obtain ⟨g₁, g₂⟩ := lhs.guards rhs
  obtain ⟨c, hc⟩ := integerArithmeticPrimitive_isSome op lhs.primitive
    rhs.primitive
  have hm : ¬ UnsignedMeetsSigned target lhs.primitive rhs.primitive := by
    rcases hop with rfl | rfl | rfl <;> simpa [CarrierSafe, BinOp.isComparison] using hx
  obtain ⟨hl, hr⟩ := integerArithmeticPrimitive_holds hc hm
  rcases hop with rfl | rfl | rfl
  · refine ⟨⟨.integerAdd, c, c, .integer c, q, none⟩, c, ?_, .of_held rfl rfl hl hr ?_⟩
    · simp only [bindBinaryOperation, if_neg g₁, if_neg g₂, hc, Option.map_some]
    · exact binaryToCxx_add .add q hl hr
  · refine ⟨⟨.integerSub, c, c, .integer c, q, none⟩, c, ?_, .of_held rfl rfl hl hr ?_⟩
    · simp only [bindBinaryOperation, if_neg g₁, if_neg g₂, hc, Option.map_some]
    · exact binaryToCxx_sub .sub q hl hr
  · refine ⟨⟨.integerMul, c, c, .integer c, q, none⟩, c, ?_, .of_held rfl rfl hl hr ?_⟩
    · simp only [bindBinaryOperation, if_neg g₁, if_neg g₂, hc, Option.map_some]
    · exact binaryToCxx_mul .mul q hl hr

theorem bindDivision_exact {op : BinOp} (hop : op = .intDiv ∨ op = .mod) (q : Bool)
    {lhs rhs : Operand target} (hx : CarrierSafe op lhs rhs) :
    ∃ bound c, bindBinaryOperation target op q lhs.toOperandInfo rhs.toOperandInfo = some bound ∧
      BoundExactly target op q lhs rhs bound c := by
  obtain ⟨g₁, g₂⟩ := lhs.guards rhs
  obtain ⟨c, hc⟩ := integerDivisionPrimitive_isSome lhs.toOperandInfo
    rhs.toOperandInfo
  have hm : ¬ UnsignedMeetsSigned target lhs.primitive rhs.primitive ∨
      lhs.IsSmallConstant ∨ rhs.IsSmallConstant := by
    rcases hop with rfl | rfl <;> simpa [CarrierSafe, BinOp.isComparison] using hx
  obtain ⟨hl, hr⟩ := integerDivisionPrimitive_holds hc hm
  rcases hop with rfl | rfl
  · refine ⟨⟨.integerDiv, c, c, .integer c, q, none⟩, c, ?_, .of_held rfl rfl hl hr ?_⟩
    · simp only [bindBinaryOperation, if_neg g₁, if_neg g₂, hc, Option.map_some]
    · exact binaryToCxx_div .intDiv q hl hr
  · refine ⟨⟨.integerMod, c, c, .integer c, q, none⟩, c, ?_, .of_held rfl rfl hl hr ?_⟩
    · simp only [bindBinaryOperation, if_neg g₁, if_neg g₂, hc, Option.map_some]
    · exact binaryToCxx_mod .mod q hl hr

theorem bindComparison_exact {op : BinOp} (hop : op.isComparison = true) (q : Bool)
    {lhs rhs : Operand target} (hx : CarrierSafe op lhs rhs) :
    ∃ bound c, bindBinaryOperation target op q lhs.toOperandInfo rhs.toOperandInfo = some bound ∧
      BoundExactly target op q lhs rhs bound c := by
  obtain ⟨g₁, g₂⟩ := lhs.guards rhs
  obtain ⟨c, hc⟩ := integerComparisonPrimitive_isSome lhs.toOperandInfo
    rhs.toOperandInfo
  have hm : ¬ UnsignedMeetsSigned target lhs.primitive rhs.primitive ∨
      lhs.fits target rhs.primitive = true ∨ rhs.fits target lhs.primitive = true := by
    rcases hx with hx | hx | ⟨rfl | rfl, -⟩
    · exact .inl hx
    · exact .inr hx.2
    · simp [BinOp.isComparison] at hop
    · simp [BinOp.isComparison] at hop
  obtain ⟨hl, hr⟩ := integerComparisonPrimitive_holds hc hm
  refine ⟨⟨.integerCompare, c, c, .boolean, q, compareConstantIntegers op lhs.toOperandInfo
    rhs.toOperandInfo⟩, c, ?_, .of_held rfl rfl hl hr ?_⟩
  · cases op <;> simp only [BinOp.isComparison, Bool.false_eq_true] at hop <;>
      simp only [bindBinaryOperation, if_neg g₁, if_neg g₂, hc, Option.map_some]
  · rw [binaryToCxx_compare hop q hl hr]
    cases op <;> simp only [BinOp.isComparison, Bool.false_eq_true] at hop <;> rfl

theorem bindBinaryOperation_exact {op : BinOp}
    (hop : op ∈ [.add, .sub, .mul, .intDiv, .mod, .eq, .notEq, .lt, .gt, .ltEq, .gtEq])
    (qCheck : Bool) {lhs rhs : Operand target} (hx : CarrierSafe op lhs rhs) :
    ∃ bound c, bindBinaryOperation target op qCheck lhs.toOperandInfo rhs.toOperandInfo =
        some bound ∧ BoundExactly target op qCheck lhs rhs bound c := by
  by_cases hc : op.isComparison = true
  · exact bindComparison_exact hc qCheck hx
  · cases op <;> simp [BinOp.isComparison] at hop hc
    case add => exact bindArithmetic_exact (by simp) qCheck hx
    case sub => exact bindArithmetic_exact (by simp) qCheck hx
    case mul => exact bindArithmetic_exact (by simp) qCheck hx
    case intDiv => exact bindDivision_exact (by simp) qCheck hx
    case mod => exact bindDivision_exact (by simp) qCheck hx

/-- A 64-bit target on which a byte holding 200 is compared with a longint holding -5. -/
theorem bindBinaryOperation_exact_byte_longInt :
    let target : TargetInfo := ⟨64, .inr rfl⟩
    let lhs : Operand target := .runtime ⟨.byte, by decide⟩ rfl (by decide) ⟨200, by decide⟩
    let rhs : Operand target := .runtime ⟨.longInt, by decide⟩ rfl (by decide) ⟨-5, by decide⟩
    ∃ bound c, bindBinaryOperation target .lt true lhs.toOperandInfo rhs.toOperandInfo =
        some bound ∧ BoundExactly target .lt true lhs rhs bound c :=
  bindBinaryOperation_exact (by decide) true (.inl (by decide))

end
end Tp2cc
