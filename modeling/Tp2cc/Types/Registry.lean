import Tp2cc.Ast
import Tp2cc.Primitive

/-! Type expressions as binding leaves them: nodes that point to each other, each with the
descriptor of its Pascal type. -/
set_option autoImplicit false

namespace Tp2cc

structure SignatureParam (ν : Type) where
  mode : ParamMode
  names : List String
  type : Option ν

/-- A type expression; `none` is a null pointer. -/
inductive TypeNode (ν : Type) where
  | tyName
  | tyArray (dims : List (Option ν)) (element : Option ν) (isPacked : Bool)
      (arrayKind : ArrayKind)
  | tyRecord
  | tyObject
  | tyInterface
  | tySet (element : Option ν) (explicitBounds : Option (Int × Int))
  | tyFile (element : Option ν) (isText : Bool)
  | tyPointer (target : Option ν)
  | tyDistinct (underlying : Option ν)
  | tyMetaclass
  | tyProcedural (isFunction : Bool) (params : List (SignatureParam ν)) (returnType : Option ν)
      (isCdecl isMethod : Bool)
  | tyEnum (memberCount : Nat)
  | tySubrange (lo hi : Expr)
  | tyString (maxLength : Option Expr)

def TypeNode.hasBounds {ν : Type} : TypeNode ν → Bool
  | .tySubrange _ _ => true
  | .tyString maxLength => maxLength.isSome
  | _ => false

/-- The type expressions of a program and their descriptors, `κ` the lookup contexts. A descriptor
belongs to the syntax that created its type; only `class of` has none. -/
structure TypeRegistry (κ : Type) where
  size : Nat
  descriptors : Nat
  node : Fin size → TypeNode (Fin size)
  descriptor : Fin size → Option (Fin descriptors)
  typeContext : Fin size → Option κ
  /-- `TypeDescriptor::type`. -/
  payload : Fin descriptors → Option (Fin size)
  primitive : Fin descriptors → Option PrimitiveKind
  /-- How many members `enum_info` has. -/
  enumMembers : Fin descriptors → Option Nat
  payload_bound : ∀ d t, payload d = some t → descriptor t = some d
  metaclass_name : ∀ t d, descriptor t = some d → payload d = none →
    node t = .tyName ∨ node t = .tyMetaclass
  metaclass_primitive : ∀ d, payload d = none → primitive d = none
  bounds_scoped : ∀ t, (descriptor t).isSome = true → (node t).hasBounds = true →
    (typeContext t).isSome = true

namespace TypeRegistry
variable {κ : Type} (r : TypeRegistry κ)

def descriptorForType (type : Option (Fin r.size)) : Option (Fin r.descriptors) :=
  type.bind r.descriptor

def sameDescriptor (a b : Option (Fin r.size)) : Bool :=
  (r.descriptorForType a).isSome && r.descriptorForType a == r.descriptorForType b

/-- The syntax a type expression stands for: its descriptor's, or for `class of` the node itself. -/
def payloadShape (type : Option (Fin r.size)) : Option (Fin r.size) := do
  let t ← type
  let descriptor ← r.descriptor t
  return (r.payload descriptor).getD t

variable {r}

theorem sameDescriptor_iff {a b : Option (Fin r.size)} : r.sameDescriptor a b = true ↔
    ∃ d, r.descriptorForType a = some d ∧ r.descriptorForType b = some d := by
  unfold sameDescriptor
  cases r.descriptorForType a with
  | none => simp
  | some d =>
    constructor
    · intro h
      have hb : some d = r.descriptorForType b := by simpa using h
      exact ⟨d, rfl, hb.symm⟩
    · rintro ⟨d', ha, hb⟩
      simp [hb, ha]

theorem sameDescriptor_symm {a b : Option (Fin r.size)} (h : r.sameDescriptor a b = true) :
    r.sameDescriptor b a = true := by
  obtain ⟨d, ha, hb⟩ := sameDescriptor_iff.mp h
  exact sameDescriptor_iff.mpr ⟨d, hb, ha⟩

theorem sameDescriptor_trans {a b c : Option (Fin r.size)} (h : r.sameDescriptor a b = true)
    (h' : r.sameDescriptor b c = true) : r.sameDescriptor a c = true := by
  obtain ⟨d, ha, hb⟩ := sameDescriptor_iff.mp h
  obtain ⟨d', hb', hc⟩ := sameDescriptor_iff.mp h'
  rw [hb] at hb'
  cases hb'
  exact sameDescriptor_iff.mpr ⟨d, ha, hc⟩

theorem payloadShape_isSome {a : Option (Fin r.size)} :
    (r.payloadShape a).isSome = (r.descriptorForType a).isSome := by
  unfold payloadShape descriptorForType
  cases a with
  | none => rfl
  | some t => cases h : r.descriptor t <;> simp [h]

theorem descriptor_of_payloadShape {a : Option (Fin r.size)} {s : Fin r.size}
    (h : r.payloadShape a = some s) : r.descriptorForType a = r.descriptor s := by
  cases a with
  | none => cases h
  | some t =>
    cases hd : r.descriptor t with
    | none => simp [payloadShape, hd] at h
    | some d =>
      simp only [payloadShape, hd, Option.bind_eq_bind, Option.bind_some] at h
      have hs := Option.some.inj h
      have hta : r.descriptorForType (some t) = some d := hd
      rw [hta]
      cases hp : r.payload d with
      | none =>
        rw [hp, Option.getD_none] at hs
        rw [← hs, hd]
      | some p =>
        rw [hp, Option.getD_some] at hs
        rw [← hs, r.payload_bound d p hp]

theorem payloadShape_of_same {a b : Option (Fin r.size)} (h : r.sameDescriptor a b = true) :
    r.payloadShape a = r.payloadShape b ∨
      ∀ s, r.payloadShape a = some s ∨ r.payloadShape b = some s →
        (r.node s = .tyName ∨ r.node s = .tyMetaclass) ∧
          ∀ d, r.descriptor s = some d → r.primitive d = none := by
  obtain ⟨d, ha, hb⟩ := sameDescriptor_iff.mp h
  have hshape {c : Option (Fin r.size)} (hc : r.descriptorForType c = some d) :
      ∃ t, c = some t ∧ r.descriptor t = some d ∧
        r.payloadShape c = some ((r.payload d).getD t) := by
    cases c with
    | none => cases hc
    | some t =>
      have ht : r.descriptor t = some d := hc
      exact ⟨t, rfl, ht, by simp [payloadShape, ht]⟩
  obtain ⟨t, -, ht, hta⟩ := hshape ha
  obtain ⟨u, -, hu, hub⟩ := hshape hb
  cases hp : r.payload d with
  | some p =>
    rw [hp, Option.getD_some] at hta hub
    exact .inl (hta.trans hub.symm)
  | none =>
    rw [hp, Option.getD_none] at hta hub
    have hbare {t : Fin r.size} (ht : r.descriptor t = some d) :
        (r.node t = .tyName ∨ r.node t = .tyMetaclass) ∧
          ∀ d, r.descriptor t = some d → r.primitive d = none := by
      refine ⟨r.metaclass_name t d ht hp, fun d' hd => ?_⟩
      rw [ht] at hd
      cases hd
      exact r.metaclass_primitive d hp
    right
    rintro s (hs | hs)
    · rw [hta] at hs
      cases hs
      exact hbare ht
    · rw [hub] at hs
      cases hs
      exact hbare hu

end TypeRegistry
end Tp2cc
