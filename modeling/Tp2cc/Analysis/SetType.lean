import Tp2cc.Analysis.Ordinal
import Tp2cc.Emit.SetLiteral

set_option autoImplicit false

namespace Tp2cc
open Machine Rt

section
variable {target : TargetInfo} {σ : Type}

def OrdinalType.elemType (target : TargetInfo) (t : OrdinalType) (storage : IntegerPrimitive) :
    ElemType :=
  match t with
  | .char | .subrange .char _ _ _ _ => .char
  | .boolean | .subrange .boolean _ _ _ _ => .bool
  | _ => .integer (storage.intType target)

theorem OrdinalType.elemType_bits_le (t : OrdinalType) (s : IntegerPrimitive) :
    (t.elemType target s).carrier.bits ≤ s.bits target := by
  have hbits := s.bits_cases target
  unfold elemType
  split
  · change 8 ≤ s.bits target
    omega
  · change 8 ≤ s.bits target
    omega
  · change 1 ≤ s.bits target
    omega
  · change 1 ≤ s.bits target
    omega
  · exact le_refl _

theorem OrdinalType.Stored.elemType_holds {t : OrdinalType} {s : IntegerPrimitive}
    (h : t.Stored target s) {v : Int} (hv : t.low target ≤ v ∧ v ≤ t.high target) :
    (t.elemType target s).carrier.Holds v := by
  unfold elemType
  split
  · exact hv
  · rename_i hc
    exact ⟨hc.1.1.trans hv.1, hv.2.trans hc.2.2⟩
  · exact hv
  · rename_i hc
    exact ⟨hc.1.1.trans hv.1, hv.2.trans hc.2.2⟩
  · exact ⟨h.low_held.1.trans hv.1, hv.2.trans h.high_held.2⟩

theorem OrdinalType.stored_of_storage {t : OrdinalType} {s : IntegerPrimitive}
    (h : t.storagePrimitive = some s) : t.Stored target s := by
  obtain ⟨s', hs⟩ : ∃ s', t.Stored target s' := t.exists_stored
  cases h.symm.trans hs.selected
  exact hs

/-- The primitive that `convert_const_int_value` finds for the type. Subranges and enums have none. -/
def OrdinalType.integerPrimitive (target : TargetInfo) : OrdinalType → Option IntType
  | .integer p _ _ => some (p.intType target)
  | _ => none

theorem OrdinalType.Stored.integerPrimitive_eq {t : OrdinalType} {s : IntegerPrimitive}
    (h : t.Stored target s) {r : IntType} (hr : t.integerPrimitive target = some r) :
    r = (t.elemType target s).carrier := by
  cases t with
  | integer p hi hc =>
    cases h.selected
    cases hr
    rfl
  | char => cases hr
  | boolean => cases hr
  | enum e => cases hr
  | subrange base low high ho hc => cases hr

def OrdinalType.domain (target : TargetInfo) (t : OrdinalType) : Int × Int :=
  (t.low target,min (t.high target) Rt.cxxInt64.hi)

/-- A set type with the bounds that a loop over it takes. They are those of the element type in a
declared set, and the recorded ones in the type of a literal. -/
structure SetType (target : TargetInfo) where
  element : OrdinalType
  storage : IntegerPrimitive
  stored : element.Stored target storage
  low : Int
  high : Int

def SetType.elem (type : SetType target) : ElemType := type.element.elemType target type.storage

def SetType.declared (element : OrdinalType) (storage : IntegerPrimitive)
    (stored : element.Stored target storage) : SetType target :=
  ⟨element, storage, stored, element.low target, element.high target⟩

inductive OrdinalFamily where
  | integer | boolean | char | enum
  deriving DecidableEq

def OrdinalType.family : OrdinalType → OrdinalFamily
  | .integer _ _ _ | .subrange .integer _ _ _ _ => .integer
  | .char | .subrange .char _ _ _ _ => .char
  | .boolean | .subrange .boolean _ _ _ _ => .boolean
  | .enum _ | .subrange (.enum _) _ _ _ _ => .enum

/-- An element or a bound in a set literal: its type with the key of its enum, which is empty for
other types, its code, its value where it folds, and whether it is a name, an intrinsic or a binary
expression, which keep their code also then. -/
structure LiteralOperand (σ : Type) where
  type : OrdinalType
  enumKey : String
  expr : Effectful σ Int
  constant : Option Int
  keepsCode : Bool
  folded : ∀ v, constant = some v → expr = .const v

def LiteralOperand.operand (x : LiteralOperand σ) : ElementOperand σ :=
  match x.constant, x.keepsCode with
  | some v, false => .number v
  | _, _ => .other x.expr

abbrev LiteralElement (σ : Type) := LiteralElem (LiteralOperand σ)

namespace LiteralElement

def operands : LiteralElement σ → List (LiteralOperand σ)
  | .value x => [x]
  | .range lo hi => [lo, hi]

def element (x : LiteralElement σ) : LiteralElem (ElementOperand σ) := x.map (·.operand)

end LiteralElement

theorem longInt_ordinal : IntegerPrimitive.family ⟨.longInt, PrimitiveKind.longInt_integer⟩ = .integer :=
  rfl
theorem longInt_ne_currency : PrimitiveKind.longInt ≠ .currency := by decide

def OrdinalType.setLiteralElementResult : OrdinalType → OrdinalType
  | .integer _ _ _ => .integer ⟨.longInt, PrimitiveKind.longInt_integer⟩ longInt_ordinal
    longInt_ne_currency
  | t => t

structure SetLiteralOrdinalSummary where
  family : OrdinalFamily
  enumKey : String
  elementType : OrdinalType
  low : Int
  high : Int

def extendSetLiteralOrdinalSummary (summary : Option SetLiteralOrdinalSummary)
    (x : LiteralOperand σ) : Option SetLiteralOrdinalSummary := do
  let v ← x.constant
  match summary with
  | none => return ⟨x.type.family, x.enumKey, x.type.setLiteralElementResult, v, v⟩
  | some summary =>
    if summary.family ≠ x.type.family ∨ summary.enumKey ≠ x.enumKey then none
    else return { summary with low := min summary.low v, high := max summary.high v }

def summarizeSetLiteralOrdinals (summary : Option SetLiteralOrdinalSummary) :
    List (LiteralOperand σ) → Option SetLiteralOrdinalSummary
  | [] => summary
  | x :: xs => do
    let next ← extendSetLiteralOrdinalSummary summary x
    summarizeSetLiteralOrdinals (some next) xs

def synthesizeSetType (target : TargetInfo) (element : OrdinalType) (bounds : Int × Int) :
    Option (SetType target) :=
  match h : element.storagePrimitive with
  | some storage => some ⟨element, storage, element.stored_of_storage h, bounds.1, bounds.2⟩
  | none => none

/-- `deduce_set_literal_type` without a target. Where an operand does not fold, the first one gives
the element type and the bounds. -/
def deduceSetLiteralType (target : TargetInfo) (elements : List (LiteralElement σ)) :
    Option (SetType target) :=
  let operands := elements.flatMap LiteralElement.operands
  match operands.head? with
  | none => none
  | some first =>
    match summarizeSetLiteralOrdinals none operands with
    | none =>
      if operands.all fun x => x.type.family = first.type.family ∧ x.enumKey = first.enumKey then
        synthesizeSetType target first.type (first.type.domain target)
      else none
    | some summary => synthesizeSetType target summary.elementType (summary.low,summary.high)

theorem summarize_bounds {summary : Option SetLiteralOrdinalSummary} {xs : List (LiteralOperand σ)}
    {result : SetLiteralOrdinalSummary} (h : summarizeSetLiteralOrdinals summary xs = some result) :
    (∀ s, summary = some s → result.low ≤ s.low ∧ s.high ≤ result.high) ∧
      ∀ x ∈ xs, ∃ v, x.constant = some v ∧ result.low ≤ v ∧ v ≤ result.high := by
  induction xs generalizing summary with
  | nil =>
    rw [summarizeSetLiteralOrdinals] at h
    constructor
    · intro s hsummary
      cases h.symm.trans hsummary
      exact ⟨le_refl _, le_refl _⟩
    · intro x hx
      cases hx
  | cons x xs ih =>
    obtain ⟨next, hnext, hrest⟩ := Option.bind_eq_some_iff.mp h
    obtain ⟨v, hv, hnext⟩ := Option.bind_eq_some_iff.mp hnext
    obtain ⟨hbounds, hmem⟩ := ih hrest
    obtain ⟨h₁, h₂⟩ := hbounds next rfl
    have hv' : next.low ≤ v ∧ v ≤ next.high ∧
        ∀ s, summary = some s → next.low ≤ s.low ∧ s.high ≤ next.high := by
      cases summary with
      | none =>
        cases hnext
        refine ⟨le_refl v, le_refl v, ?_⟩
        intro s hs
        cases hs
      | some s =>
        simp only at hnext
        split at hnext
        · cases hnext
        · cases hnext
          refine ⟨min_le_right .., le_max_right .., ?_⟩
          intro s' hs
          cases hs
          exact ⟨min_le_left .., le_max_left ..⟩
    constructor
    · intro s hs
      obtain ⟨h₃, h₄⟩ := hv'.2.2 s hs
      exact ⟨h₁.trans h₃, h₄.trans h₂⟩
    · intro y hy
      cases hy with
      | head => exact ⟨v, hv, h₁.trans hv'.1, hv'.2.1.trans h₂⟩
      | tail _ hy => exact hmem y hy

end
end Tp2cc
