import Tp2cc.Analysis.Ordinal
import Tp2cc.Analysis.SameTypeLaw

/-! The set type that a binary operation on sets gets, and which set types convert to which. -/
set_option autoImplicit false

namespace Tp2cc

inductive SetConversionKind where
  | incompatible | exact | compatible
  deriving DecidableEq

inductive SetOperationKind where
  | setUnion | setDifference | setIntersection | setSymmetricDifference
  deriving DecidableEq

def SetOperationKind.ofOp : BinOp → Option SetOperationKind
  | .add => some .setUnion
  | .sub => some .setDifference
  | .mul => some .setIntersection
  | .symDiff => some .setSymmetricDifference
  | _ => none

inductive SetTypeExpr (ν : Type) where
  | bound (type : ν)
  | inferred (element : ν) (low high : Int)
  deriving DecidableEq

/-- An element or a bound in a set literal: what `deduce_type` and `eval_ordinal_expr` give. -/
structure SetLitOperand (ν δ : Type) where
  type : Option ν
  ordinal : Option (OrdinalExprValue δ)

/-- The operands of the elements in their order, and the type of an earlier deduction. -/
structure SetLit (ν δ : Type) where
  operands : List (SetLitOperand ν δ)
  result : Option (SetTypeExpr ν)

structure SetOperand (ν δ : Type) where
  sourceType : Option (SetTypeExpr ν)
  literal : Option (SetLit ν δ)

structure BoundSetOperation (ν : Type) where
  kind : SetOperationKind
  lhsSource : SetTypeExpr ν
  rhsSource : SetTypeExpr ν
  result : SetTypeExpr ν

def familyCompatible {δ : Type} [DecidableEq δ] (source dest : OrdinalDomain δ) : Bool :=
  match dest.family with
  | .enum => source.family = .enum && source.enumKey = dest.enumKey
  | family => source.family = family

namespace TypeRegistry
variable {κ : Type} (r : TypeRegistry κ)

/-- The compiler-provided integer types and the edge `set_literal_element_result`. -/
structure Builtins where
  descriptor : IntegerPrimitive → Fin r.descriptors
  type : IntegerPrimitive → Fin r.size
  setLiteralElementResult : Fin r.descriptors → Option (Fin r.descriptors)
  payload_eq : ∀ p, r.payload (descriptor p) = some (type p)
  primitive_eq : ∀ p, r.primitive (descriptor p) = some p.kind
  name_eq : ∀ p, r.node (type p) = .tyName

structure SetLiteralOrdinalSummary (ν δ : Type) where
  family : DomainFamily
  enumKey : Option δ
  elementType : Option ν
  low : Int
  high : Int

/-- `static_cast<const TySet&>` of the shape: the element and the explicit bounds. -/
def setShape : SetTypeExpr (Fin r.size) → Option (Option (Fin r.size) × Option (Int × Int))
  | .bound type =>
    match (r.payloadShape (some type)).map r.node with
    | some (.tySet element bounds) => some (element, bounds)
    | _ => none
  | .inferred element low high => some (some element, some (low, high))

def canonicalSetType (type : SetTypeExpr (Fin r.size)) : Option (SetTypeExpr (Fin r.size)) :=
  if (r.setShape type).isSome then
    match type with
    | .bound type => (r.payloadShape (some type)).map .bound
    | inferred => some inferred
  else none

def setDescriptorExists : SetTypeExpr (Fin r.size) → Bool
  | .bound type => (r.descriptorForType (some type)).isSome
  | .inferred _ _ _ => true

/-- `inferred_set_type`, which makes one type for each element descriptor and pair of bounds. -/
def synthesizeSetType (element : Option (Fin r.size)) (bounds : Int × Int) :
    Option (SetTypeExpr (Fin r.size)) := do
  let element ← element
  let _ ← r.descriptor element
  return .inferred element bounds.1 bounds.2

variable (target : TargetInfo) (ev : BoundEvaluator κ (Fin r.descriptors))

def ordinalDomain (n : Nat) (type : Option (Fin r.size)) :
    Option (Option (OrdinalDomain (Fin r.descriptors))) :=
  r.ordinalDomainForType target ev n type (r.lookupContextForType type)

def ordinalDomainForSetType (n : Nat) :
    SetTypeExpr (Fin r.size) → Option (Option (OrdinalDomain (Fin r.descriptors)))
  | .bound type =>
    match r.semanticShapeType (some type) (r.typeContext type) with
    | none => some none
    | some (shape, context) =>
      match r.node shape with
      | .tySet element bounds => do
        let domain ← r.ordinalDomainForType target ev n element (r.childContext (some shape) context)
        return domain.map (·.withBounds bounds)
      | _ => some none
  | .inferred element low high => do
    let domain ← r.ordinalDomainForType target ev n (some element) none
    return domain.map (·.withBounds (some (low, high)))

def sameTypeAst (n : Nat) (a b : Option (Fin r.size)) : Option Bool :=
  r.sameTypeAstInContext target ev n a (r.lookupContextForType a) b (r.lookupContextForType b)

/-- `classify_set_conversion` where both sets have a domain. -/
def classifyDomains (n : Nat) (sourceElement destElement : Option (Fin r.size))
    (source dest : OrdinalDomain (Fin r.descriptors)) : Option SetConversionKind :=
  if familyCompatible source dest = false then some .incompatible
  else if source.low < dest.low ∨ source.high > dest.high then some .incompatible
  else if source.low = dest.low ∧ source.high = dest.high then do
    let same ← r.sameTypeAst target ev n sourceElement destElement
    return if same then .exact else .compatible
  else some .compatible

def classifySetConversion (n : Nat) (source dest : SetTypeExpr (Fin r.size)) :
    Option SetConversionKind :=
  match r.canonicalSetType source, r.canonicalSetType dest with
  | some source, some dest => do
    let sourceDomain ← r.ordinalDomainForSetType target ev n source
    let destDomain ← r.ordinalDomainForSetType target ev n dest
    match sourceDomain, destDomain with
    | some sourceDomain, some destDomain =>
      r.classifyDomains target ev n ((r.setShape source).bind (·.1)) ((r.setShape dest).bind (·.1))
        sourceDomain destDomain
    | _, _ => return .incompatible
  | _, _ => some .incompatible

section
variable (b : r.Builtins)

def extendSetLiteralOrdinalSummary
    (summary : Option (SetLiteralOrdinalSummary (Fin r.size) (Fin r.descriptors)))
    (x : SetLitOperand (Fin r.size) (Fin r.descriptors)) :
    Option (SetLiteralOrdinalSummary (Fin r.size) (Fin r.descriptors)) := do
  let ordinal ← x.ordinal
  match summary with
  | none =>
    let element := (r.descriptorForType x.type).bind b.setLiteralElementResult
    return ⟨ordinal.family, ordinal.enumKey, element.bind r.payload, ordinal.value, ordinal.value⟩
  | some summary =>
    if summary.family ≠ ordinal.family ∨ summary.enumKey ≠ ordinal.enumKey then none
    else return { summary with
      low := min summary.low ordinal.value
      high := max summary.high ordinal.value }

def summarizeSetLiteralOrdinals
    (summary : Option (SetLiteralOrdinalSummary (Fin r.size) (Fin r.descriptors))) :
    List (SetLitOperand (Fin r.size) (Fin r.descriptors)) →
      Option (SetLiteralOrdinalSummary (Fin r.size) (Fin r.descriptors))
  | [] => summary
  | x :: operands => do
    let next ← extendSetLiteralOrdinalSummary r b summary x
    summarizeSetLiteralOrdinals (some next) operands

def elementMatches (n : Nat) (dest : OrdinalDomain (Fin r.descriptors))
    (x : SetLitOperand (Fin r.size) (Fin r.descriptors)) : Option Bool := do
  let domain ← match x.type with
    | some type => r.ordinalDomain target ev n (some type)
    | none => some none
  let domain := domain.or (x.ordinal.map fun v => ⟨v.family, v.value, v.value, v.enumKey⟩)
  return domain.any fun d => d.family = dest.family && d.enumKey = dest.enumKey

def elementsMatch (n : Nat) (dest : OrdinalDomain (Fin r.descriptors)) :
    List (SetLitOperand (Fin r.size) (Fin r.descriptors)) → Option Bool
  | [] => some true
  | x :: operands => do
    if ← r.elementMatches target ev n dest x then elementsMatch n dest operands else return false

def setLiteralElementsConvertTo (n : Nat) (s : SetLit (Fin r.size) (Fin r.descriptors))
    (dest : SetTypeExpr (Fin r.size)) : Option Bool := do
  match ← r.ordinalDomainForSetType target ev n dest with
  | none => return false
  | some domain => r.elementsMatch target ev n domain s.operands

/-- `add_element_type` over the operands: the type and the domain of the first one, where all have
one family and key. -/
def addElementTypes (n : Nat)
    (first : Option (Option (Fin r.size) × OrdinalDomain (Fin r.descriptors))) :
    List (SetLitOperand (Fin r.size) (Fin r.descriptors)) →
      Option (Option (Option (Fin r.size) × OrdinalDomain (Fin r.descriptors)))
  | [] => some first
  | x :: operands => do
    match ← r.ordinalDomain target ev n x.type with
    | none => return none
    | some next =>
      match first with
      | none => addElementTypes n (some (x.type, next)) operands
      | some (type, domain) =>
        if domain.family = next.family ∧ domain.enumKey = next.enumKey then
          addElementTypes n (some (type, domain)) operands
        else return none

def inferSetLiteralType (n : Nat) (s : SetLit (Fin r.size) (Fin r.descriptors)) :
    Option (Option (SetTypeExpr (Fin r.size))) :=
  match summarizeSetLiteralOrdinals r b none s.operands with
  | some summary => some (r.synthesizeSetType summary.elementType (summary.low, summary.high))
  | none => do
    let first ← r.addElementTypes target ev n none s.operands
    return first.bind fun first => r.synthesizeSetType first.1 (first.2.low, first.2.high)

/-- The target where the inferred type or else the elements convert to it. -/
def contextualSetType (n : Nat) (s : SetLit (Fin r.size) (Fin r.descriptors))
    (inferred : SetTypeExpr (Fin r.size)) (dest : Option (SetTypeExpr (Fin r.size))) :
    Option (Option (SetTypeExpr (Fin r.size))) :=
  match dest with
  | none => some (some inferred)
  | some dest => do
    if (← r.classifySetConversion target ev n inferred dest) ≠ .incompatible then return some dest
    else if ← r.setLiteralElementsConvertTo target ev n s dest then return some dest
    else return none

def deduceSetLiteralType (n : Nat) (s : SetLit (Fin r.size) (Fin r.descriptors))
    (dest : Option (SetTypeExpr (Fin r.size))) : Option (Option (SetTypeExpr (Fin r.size))) :=
  let setTarget := dest.bind r.canonicalSetType
  match s.result.filter fun type => (r.canonicalSetType type).isSome with
  | some inferred => r.contextualSetType target ev n s inferred setTarget
  | none =>
    if s.operands = [] then some setTarget
    else do
      match ← r.inferSetLiteralType target ev b n s with
      | none => return none
      | some inferred => r.contextualSetType target ev n s inferred setTarget

/-- The element type of a result that neither operand's type can be. -/
def resultElement (n : Nat) (family : DomainFamily) (low high : Int)
    (lhs rhs : Option (Fin r.size)) : Option (Option (Fin r.size)) :=
  if family = .integer then do
    let lhsDomain ← r.ordinalDomain target ev n lhs
    let rhsDomain ← r.ordinalDomain target ev n rhs
    return if lhsDomain.any fun d => d.low ≤ low && high ≤ d.high then lhs
      else if rhsDomain.any fun d => d.low ≤ low && high ≤ d.high then rhs
      else (ordinalIntegerPrimitiveForDomain low high).map b.type
  else some lhs

def setResultType (n : Nat) (lhsSource rhsSource lhsSet rhsSet : SetTypeExpr (Fin r.size))
    (lhsDomain rhsDomain : OrdinalDomain (Fin r.descriptors)) :
    Option (Option (SetTypeExpr (Fin r.size))) := do
  if (← r.classifySetConversion target ev n rhsSet lhsSet) ≠ .incompatible then
    return some lhsSource
  else if (← r.classifySetConversion target ev n lhsSet rhsSet) ≠ .incompatible then
    return some rhsSource
  else
    let low := min lhsDomain.low rhsDomain.low
    let high := max lhsDomain.high rhsDomain.high
    let element ← r.resultElement target ev b n lhsDomain.family low high
      ((r.setShape lhsSet).bind (·.1)) ((r.setShape rhsSet).bind (·.1))
    return r.synthesizeSetType element (low, high)

def operandType (n : Nat) (x : SetOperand (Fin r.size) (Fin r.descriptors))
    (other : Option (SetTypeExpr (Fin r.size))) : Option (Option (SetTypeExpr (Fin r.size))) :=
  match x.literal, other.bind r.canonicalSetType with
  | some s, some _ => r.deduceSetLiteralType target ev b n s other
  | _, _ => some x.sourceType

/-- `bind_set_binary_operation`; `none` outside when the fuel runs out first. -/
def bindSetBinaryOperation (n : Nat) (op : BinOp)
    (lhs rhs : SetOperand (Fin r.size) (Fin r.descriptors)) :
    Option (Option (BoundSetOperation (Fin r.size))) :=
  match SetOperationKind.ofOp op with
  | none => some none
  | some kind => do
    let lhsSource ← r.operandType target ev b n lhs rhs.sourceType
    let rhsSource ← r.operandType target ev b n rhs lhsSource
    match lhsSource, rhsSource with
    | some lhsSource, some rhsSource =>
      match r.canonicalSetType lhsSource, r.canonicalSetType rhsSource with
      | some lhsSet, some rhsSet =>
        match ← r.ordinalDomainForSetType target ev n lhsSet,
            ← r.ordinalDomainForSetType target ev n rhsSet with
        | some lhsDomain, some rhsDomain =>
          if lhsDomain.family ≠ rhsDomain.family ∨ lhsDomain.enumKey ≠ rhsDomain.enumKey then
            return none
          else
            let result ← r.setResultType target ev b n lhsSource rhsSource lhsSet rhsSet lhsDomain
              rhsDomain
            return do
              let result ← result
              if r.setDescriptorExists lhsSource ∧ r.setDescriptorExists rhsSource ∧
                  r.setDescriptorExists result then
                return ⟨kind, lhsSource, rhsSource, result⟩
              else none
        | _, _ => return none
      | _, _ => return none
    | _, _ => return none

end

end TypeRegistry
end Tp2cc
