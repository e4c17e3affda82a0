import Tp2cc.Analysis.ConstFold
import Tp2cc.Types.Registry

set_option autoImplicit false

namespace Tp2cc

inductive DomainFamily where
  | integer | boolean | char | wideChar | enum
  deriving DecidableEq

structure OrdinalExprValue (δ : Type) where
  value : Int
  family : DomainFamily
  enumKey : Option δ

structure OrdinalDomain (δ : Type) where
  family : DomainFamily
  low : Int
  high : Int
  enumKey : Option δ
  deriving DecidableEq

/-- What the constants in type declarations evaluate to; `none` outside if the evaluation does not
return. -/
structure BoundEvaluator (κ δ : Type) where
  evalOrdinalExpr : Expr → Option κ → Option (Option (OrdinalExprValue δ))
  enumMemberOrdinal : δ → Nat → Option (Option Int)

section
variable {δ : Type}

def primitiveDomain (target : TargetInfo) : PrimitiveKind → Option (OrdinalDomain δ)
  | .boolean => some ⟨.boolean, 0, 1, none⟩
  | .char => some ⟨.char, 0, 255, none⟩
  | .wideChar => some ⟨.wideChar, 0, 65535, none⟩
  | kind =>
    if h : kind.info.intKind ≠ .none then
      let domain := integerDomain target ⟨kind, h⟩
      some ⟨.integer, domain.1, domain.2, none⟩
    else none

def subrangeDomain [DecidableEq δ] (lo hi : Option (OrdinalExprValue δ)) :
    Option (OrdinalDomain δ) := do
  let lo ← lo
  let hi ← hi
  if lo.family ≠ hi.family ∨ lo.enumKey ≠ hi.enumKey then none
  else some ⟨lo.family, min lo.value hi.value, max lo.value hi.value, lo.enumKey⟩

end

namespace TypeRegistry
variable {κ : Type} (r : TypeRegistry κ)

def lookupContextForType (type : Option (Fin r.size)) : Option κ := type.bind r.typeContext

def childContext (child : Option (Fin r.size)) (parent : Option κ) : Option κ :=
  (r.lookupContextForType child).or parent

def semanticShapeType (type : Option (Fin r.size)) (context : Option κ) :
    Option (Fin r.size × Option κ) :=
  (r.payloadShape type).map fun shape =>
    (shape, r.childContext (some shape) (r.childContext type context))

def primitiveInfoForType : Nat → Option (Fin r.size) → Option (Option PrimitiveKind)
  | 0, _ => none
  | n+1, type =>
    match (r.descriptorForType type).bind r.primitive with
    | some kind => some (some kind)
    | none =>
      match r.payloadShape type with
      | none => some none
      | some shape =>
        match r.node shape with
        | .tyDistinct underlying => primitiveInfoForType n underlying
        | _ => some none

variable (target : TargetInfo) (ev : BoundEvaluator κ (Fin r.descriptors))

/-- The domain from the first member to the last; without `enum_info` the members count. -/
def enumDomain (descriptor : Option (Fin r.descriptors)) (memberCount : Nat) :
    Option (Option (OrdinalDomain (Fin r.descriptors))) :=
  match descriptor.bind fun d => (r.enumMembers d).map (d, ·) with
  | some (d, last+1) => do
    let low ← ev.enumMemberOrdinal d 0
    let high ← ev.enumMemberOrdinal d last
    return do return ⟨.enum, ← low, ← high, some d⟩
  | _ => some (some ⟨.enum, 0, (memberCount-1 : Nat), descriptor⟩)

/-- `ordinal_domain_for_type`; `none` outside when the fuel runs out first. -/
def ordinalDomainForType : Nat → Option (Fin r.size) → Option κ →
    Option (Option (OrdinalDomain (Fin r.descriptors)))
  | 0, _, _ => none
  | n+1, type, context =>
    match r.semanticShapeType type context with
    | none => some none
    | some (shape, context) =>
      let context := r.childContext (some shape) context
      match r.node shape with
      | .tyDistinct underlying => ordinalDomainForType n underlying context
      | .tySubrange lo hi => do
        let lo ← ev.evalOrdinalExpr lo context
        let hi ← ev.evalOrdinalExpr hi context
        return subrangeDomain lo hi
      | .tyEnum memberCount => r.enumDomain ev (r.descriptor shape) memberCount
      | .tyName => do
        let info ← r.primitiveInfoForType n (some shape)
        return info.bind (primitiveDomain target)
      | _ => some none

variable {r target ev}

theorem primitiveInfoForType_succ {n : Nat} {type : Option (Fin r.size)}
    {info : Option PrimitiveKind} (h : r.primitiveInfoForType n type = some info) :
    r.primitiveInfoForType (n+1) type = some info := by
  induction n generalizing type with
  | zero => cases h
  | succ n ih =>
    rw [primitiveInfoForType] at h ⊢
    split at h
    · exact h
    · split at h
      · exact h
      · split at h
        · exact ih h
        · exact h

theorem ordinalDomainForType_succ {n : Nat} {type : Option (Fin r.size)} {context : Option κ}
    {d : Option (OrdinalDomain (Fin r.descriptors))}
    (h : r.ordinalDomainForType target ev n type context = some d) :
    r.ordinalDomainForType target ev (n+1) type context = some d := by
  induction n generalizing type context with
  | zero => cases h
  | succ n ih =>
    rw [ordinalDomainForType] at h ⊢
    cases hs : r.semanticShapeType type context with
    | none => rwa [hs] at h
    | some s =>
      simp only [hs] at h ⊢
      cases hn : r.node s.1 with
      | tyDistinct underlying =>
        simp only [hn] at h ⊢
        exact ih h
      | tyName =>
        simp only [hn, Option.bind_eq_bind, Option.bind_eq_some_iff] at h ⊢
        obtain ⟨info, hi, hd⟩ := h
        exact ⟨info, primitiveInfoForType_succ hi, hd⟩
      | _ =>
        simp only [hn] at h ⊢
        exact h

theorem childContext_of_bounds {s : Fin r.size} (hd : (r.descriptor s).isSome = true)
    (hb : (r.node s).hasBounds = true) (context : Option κ) :
    r.childContext (some s) context = r.typeContext s := by
  obtain ⟨c, hc⟩ := Option.isSome_iff_exists.mp (r.bounds_scoped s hd hb)
  simp [childContext, lookupContextForType, hc]

theorem descriptor_of_shape {type : Option (Fin r.size)} {s : Fin r.size}
    (h : r.payloadShape type = some s) : (r.descriptor s).isSome = true := by
  rw [← descriptor_of_payloadShape h, ← payloadShape_isSome, h]
  rfl

theorem payloadShape_shape {a : Option (Fin r.size)} {s : Fin r.size}
    (h : r.payloadShape a = some s) : r.payloadShape (some s) = some s := by
  obtain ⟨d, hd⟩ := Option.isSome_iff_exists.mp (descriptor_of_shape h)
  have ha : r.descriptorForType a = some d := (descriptor_of_payloadShape h).trans hd
  cases a with
  | none => cases h
  | some t =>
    have ht : r.descriptor t = some d := ha
    simp only [payloadShape, Option.bind_eq_bind, Option.bind_some, ht, hd] at h ⊢
    cases hp : r.payload d with
    | none => rfl
    | some p =>
      rw [hp] at h
      exact h

theorem ordinalDomainForType_context (n : Nat) (type : Option (Fin r.size))
    (context context' : Option κ) : r.ordinalDomainForType target ev n type context =
      r.ordinalDomainForType target ev n type context' := by
  induction n generalizing type context context' with
  | zero => rfl
  | succ n ih =>
    rw [ordinalDomainForType, ordinalDomainForType]
    simp only [semanticShapeType]
    cases hs : r.payloadShape type with
    | none => rfl
    | some s =>
      simp only [Option.map_some]
      cases hn : r.node s with
      | tyDistinct underlying => exact ih ..
      | tySubrange lo hi =>
        have hb : (r.node s).hasBounds = true := by rw [hn]; rfl
        simp only [childContext_of_bounds (descriptor_of_shape hs) hb]
      | _ => rfl

def HasDomain (r : TypeRegistry κ) (target : TargetInfo) (ev : BoundEvaluator κ (Fin r.descriptors))
    (type : Option (Fin r.size)) (d : Option (OrdinalDomain (Fin r.descriptors))) : Prop :=
  ∃ n, r.ordinalDomainForType target ev n type none = some d

theorem ordinalDomainForType_mono {n m : Nat} (hle : n ≤ m) {type : Option (Fin r.size)}
    {d : Option (OrdinalDomain (Fin r.descriptors))}
    (h : r.ordinalDomainForType target ev n type none = some d) :
    r.ordinalDomainForType target ev m type none = some d := by
  induction hle with
  | refl => exact h
  | step _ ih => exact ordinalDomainForType_succ ih

theorem HasDomain.unique {type : Option (Fin r.size)}
    {d d' : Option (OrdinalDomain (Fin r.descriptors))} (h : r.HasDomain target ev type d)
    (h' : r.HasDomain target ev type d') : d = d' := by
  obtain ⟨n, hn⟩ := h
  obtain ⟨m, hm⟩ := h'
  have h₁ := ordinalDomainForType_mono (Nat.le_max_left n m) hn
  have h₂ := ordinalDomainForType_mono (Nat.le_max_right n m) hm
  exact Option.some.inj (h₁.symm.trans h₂)

end TypeRegistry
end Tp2cc
