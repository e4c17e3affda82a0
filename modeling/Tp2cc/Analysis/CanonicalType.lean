import Tp2cc.Analysis.Ordinal
import Tp2cc.Types.OrdinalDomain

/-! The types that integer arithmetic sees in place of subranges. -/
set_option autoImplicit false

namespace Tp2cc
open Machine Rt

/-- A type that arithmetic sees: a shape, or an integer primitive. -/
inductive CanonicalType (ν : Type) where
  | shape (type : Option ν)
  | integer (p : Option IntegerPrimitive)

namespace TypeRegistry
variable {κ : Type} (r : TypeRegistry κ) (target : TargetInfo)
  (ev : BoundEvaluator κ (Fin r.descriptors))

/-- `canonicalize_for_arithmetic`; `none` when the fuel runs out first. -/
def canonicalizeForArithmetic (n : Nat) (type : Option (Fin r.size)) :
    Option (CanonicalType (Fin r.size)) :=
  match r.payloadShape type with
  | none => some (.shape none)
  | some shape =>
    match r.node shape with
    | .tySubrange _ _ => do
      let domain ← r.ordinalDomainForType target ev n (some shape) (r.typeContext shape)
      match domain with
      | some ⟨.integer, low, high, _⟩ => return .integer (subrangeIntegerType low high)
      | _ => return .shape (some shape)
    | _ => some (.shape (some shape))

structure DeclaresSubrange (type : Option (Fin r.size)) (low high : Int) : Prop where
  declared : ∃ s lo hi, r.payloadShape type = some s ∧ r.node s = .tySubrange lo hi ∧
    ev.evalOrdinalExpr lo (r.typeContext s) = some (some ⟨low, .integer, none⟩) ∧
    ev.evalOrdinalExpr hi (r.typeContext s) = some (some ⟨high, .integer, none⟩)
  int64 : cxxInt64.Holds low ∧ cxxInt64.Holds high
  ordered : low ≤ high

end TypeRegistry

/-- A negative lower bound is within the width that the upper bound selects. -/
def LowSelected (low high : Int) : Prop :=
  low < 0 → (high ≤ 127 → -128 ≤ low) ∧ (high ≤ 32767 → -32768 ≤ low) ∧
    (high ≤ 2147483647 → -2147483648 ≤ low)

theorem holds_range_iff {t : IntType} {low high : Int} (h : low ≤ high) :
    (∀ v, low ≤ v → v ≤ high → t.Holds v) ↔ t.Holds low ∧ t.Holds high := by
  constructor
  · intro hv
    exact ⟨hv low (le_refl _) h, hv high h (le_refl _)⟩
  · rintro ⟨hl, hh⟩ v h₁ h₂
    exact ⟨hl.1.trans h₁, h₂.trans hh.2⟩

theorem subrangeIntegerType_holds_iff {target : TargetInfo} {low high : Int} {p : IntegerPrimitive}
    (hp : subrangeIntegerType low high = some p) (ho : low ≤ high)
    (hi : cxxInt64.Holds low ∧ cxxInt64.Holds high) :
    (∀ v, low ≤ v → v ≤ high → (p.intType target).Holds v) ↔ LowSelected low high := by
  obtain ⟨hlo, hhi⟩ := hi
  rw [holds_int64] at hlo hhi
  rw [holds_range_iff ho]
  unfold LowSelected
  unfold subrangeIntegerType at hp
  by_cases hneg : low < 0
  · rw [if_pos hneg] at hp
    split_ifs at hp <;> obtain ⟨hk, hb, -⟩ := ordinalIntegerPrimitive_spec hp target <;>
      rw [IntegerPrimitive.holds_of_signed hk, IntegerPrimitive.holds_of_signed hk, hb] <;>
      simp only [signedMaxForBits] at * <;> omega
  · rw [if_neg hneg] at hp
    split_ifs at hp <;> obtain ⟨hk, hb, -⟩ := ordinalIntegerPrimitive_spec hp target <;>
      rw [IntegerPrimitive.holds_of_unsigned hk, IntegerPrimitive.holds_of_unsigned hk, hb] <;>
      simp only [unsignedMaskForBits] at * <;> omega

namespace TypeRegistry
variable {κ : Type} {r : TypeRegistry κ} {target : TargetInfo}
  {ev : BoundEvaluator κ (Fin r.descriptors)}

theorem DeclaresSubrange.canonicalize_eq {type : Option (Fin r.size)} {low high : Int}
    (h : r.DeclaresSubrange ev type low high) (n : Nat) :
    r.canonicalizeForArithmetic target ev (n+1) type =
      some (.integer (subrangeIntegerType low high)) := by
  obtain ⟨s, lo, hi, hs, hn, hlo, hhi⟩ := h.declared
  have hself : r.payloadShape (some s) = some s := payloadShape_shape hs
  have hb : (r.node s).hasBounds = true := by rw [hn]; rfl
  have hcontext := childContext_of_bounds (descriptor_of_shape hs) hb
  have hdomain : r.ordinalDomainForType target ev (n+1) (some s) (r.typeContext s) =
      some (some ⟨.integer, low, high, none⟩) := by
    rw [ordinalDomainForType, semanticShapeType, hself]
    simp [hn, hcontext, hlo, hhi, subrangeDomain, min_eq_left h.ordered, max_eq_right h.ordered]
  rw [canonicalizeForArithmetic, hs]
  simp only [hn, hdomain]
  rfl

/-- Arithmetic sees a subrange as a primitive that holds all of it exactly if a negative lower bound
is within the width that the upper bound selects. -/
theorem canonicalizeForArithmetic_holds_iff {type : Option (Fin r.size)} {low high : Int}
    (h : r.DeclaresSubrange ev type low high) :
    (∃ n p, r.canonicalizeForArithmetic target ev n type = some (.integer (some p)) ∧
      ∀ v, low ≤ v → v ≤ high → (p.intType target).Holds v) ↔ LowSelected low high := by
  obtain ⟨q, hq⟩ := subrangeIntegerType_isSome low high
  rw [← subrangeIntegerType_holds_iff hq h.ordered h.int64]
  constructor
  · rintro ⟨n, p, hp, hv⟩
    cases n with
    | zero =>
      obtain ⟨s, lo, hi, hs, hn, -⟩ := h.declared
      simp [canonicalizeForArithmetic, hs, hn, ordinalDomainForType] at hp
    | succ n =>
      rw [h.canonicalize_eq n, hq] at hp
      cases hp
      exact hv
  · intro hv
    exact ⟨1, q, by rw [h.canonicalize_eq 0, hq], hv⟩

end TypeRegistry

def subrangeRegistry (lo hi : Expr) : TypeRegistry Unit where
  size := 1
  descriptors := 1
  node _ := .tySubrange lo hi
  descriptor _ := some 0
  typeContext _ := some ()
  payload _ := some 0
  primitive _ := none
  enumMembers _ := none
  payload_bound d _ _ := by rw [Subsingleton.elim d 0]
  metaclass_name _ _ _ h := by cases h
  metaclass_primitive _ _ := rfl
  bounds_scoped _ _ _ := rfl

def literalBounds {δ : Type} : BoundEvaluator Unit δ where
  evalOrdinalExpr e _ :=
    match e with
    | .intLit value => some (some ⟨value, .integer, none⟩)
    | .unary .neg (.intLit value) _ => some (some ⟨-value, .integer, none⟩)
    | _ => some none
  enumMemberOrdinal _ _ := some none

def negativeBound (value : Nat) : Expr := .unary .neg (.intLit value) false

theorem declaresSubrange_negative (low high : Nat) (hl : low ≤ 2^63) (hh : high < 2^63) :
    (subrangeRegistry (negativeBound low) (.intLit high)).DeclaresSubrange literalBounds
      (some (0 : Fin 1)) (-low) high where
  declared := ⟨(0 : Fin 1), _, _, rfl, rfl, rfl, rfl⟩
  int64 := by
    rw [holds_int64, holds_int64]
    omega
  ordered := by omega

theorem canonicalizeForArithmetic_small :
    (∃ n p, (subrangeRegistry (negativeBound 5) (.intLit 10)).canonicalizeForArithmetic
      ⟨64, TargetInfo.sixtyFour⟩ literalBounds n (some (0 : Fin 1)) = some (.integer (some p)) ∧
      ∀ v, -5 ≤ v → v ≤ 10 → (p.intType ⟨64, TargetInfo.sixtyFour⟩).Holds v) ↔
    LowSelected (-5) 10 :=
  TypeRegistry.canonicalizeForArithmetic_holds_iff
    (declaresSubrange_negative 5 10 (by decide) (by decide))

theorem not_canonicalizeForArithmetic_wide :
    ¬ ∃ n p, (subrangeRegistry (negativeBound 1000) (.intLit 10)).canonicalizeForArithmetic
      ⟨64, TargetInfo.sixtyFour⟩ literalBounds n (some (0 : Fin 1)) = some (.integer (some p)) ∧
      ∀ v, -1000 ≤ v → v ≤ 10 → (p.intType ⟨64, TargetInfo.sixtyFour⟩).Holds v := by
  rintro ⟨n, p, hp, hv⟩
  have hdeclared := declaresSubrange_negative 1000 10 (by decide) (by decide)
  cases n with
  | zero => cases hp
  | succ n =>
    rw [hdeclared.canonicalize_eq n] at hp
    have hlow := (hv (-1000) (by decide) (by decide)).1
    cases hp
    revert hlow
    decide

end Tp2cc
