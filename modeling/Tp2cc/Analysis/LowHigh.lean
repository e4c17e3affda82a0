import Tp2cc.Analysis.CanonicalType
import Tp2cc.Analysis.FoldedNumber

set_option autoImplicit false

namespace Tp2cc
open Machine Rt

def ConstIntExprInfo.ofBits (bits : Int) (kind : PrimitiveKind) : ConstIntExprInfo :=
  ⟨(Word.ofInt cxxUInt64 bits).cast _, .ofInt _ bits, some kind⟩

section
variable (target : TargetInfo)

/-- The part of `eval_const_low_high` on primitives. -/
def primitiveLowHigh (wantLow : Bool) : PrimitiveKind → Option ConstIntExprInfo
  | .boolean => some (.ofBits (if wantLow then 0 else 1) .boolean)
  | .char => some (.ofBits (if wantLow then 0 else 255) .char)
  | .wideChar => some (.ofBits (if wantLow then 0 else 65535) .wideChar)
  | kind =>
    if h : kind.info.intKind ≠ .none then
      let width := (IntegerPrimitive.mk kind h).bits target
      if kind.info.intKind = .unsigned then
        some (.ofBits (if wantLow then 0 else unsignedMaskForBits width) kind)
      else
        some (.ofValue (.ofInt _ (if wantLow then signedMinForBits width
          else signedMaxForBits width)) (some kind))
    else none

def primitiveBounds : PrimitiveKind → Option (Int × Int)
  | .boolean => some (0, 1)
  | .char => some (0, 255)
  | .wideChar => some (0, 65535)
  | kind =>
    if h : kind.info.intKind ≠ .none then
      let type := (IntegerPrimitive.mk kind h).intType target
      some (type.lo, type.hi)
    else none

end

def wanted (wantLow : Bool) (low high : Int) : Int := if wantLow then low else high

def OrdinalDomain.wanted {δ : Type} (wantLow : Bool) (d : OrdinalDomain δ) : Int :=
  Tp2cc.wanted wantLow d.low d.high

section
variable {target : TargetInfo}

theorem primitiveBounds_int64 {kind : PrimitiveKind} {low high : Int}
    (h : primitiveBounds target kind = some (low, high)) :
    -(2^63) ≤ low ∧ low ≤ 0 ∧ 0 ≤ high := by
  unfold primitiveBounds at h
  split at h
  · cases h
    omega
  · cases h
    omega
  · cases h
    omega
  · split_ifs at h with hint
    have hp := IntegerPrimitive.bits_cases ⟨kind, hint⟩ target
    simp only [Option.some.injEq, Prod.mk.injEq] at h
    obtain ⟨rfl, rfl⟩ := h
    rw [IntType.lo, IntType.hi, IntegerPrimitive.intType_bits]
    split_ifs <;> rcases hp with hp | hp | hp | hp <;> rw [hp] <;> omega

theorem primitiveDomain_of_bounds (δ : Type) {kind : PrimitiveKind} {low high : Int}
    (h : primitiveBounds target kind = some (low, high)) :
    ∃ family, (primitiveDomain target kind : Option (OrdinalDomain δ)) =
      some ⟨family, low, min high (2^63-1), none⟩ := by
  unfold primitiveBounds at h
  split at h
  · cases h
    exact ⟨_, rfl⟩
  · cases h
    exact ⟨_, rfl⟩
  · cases h
    exact ⟨_, rfl⟩
  · split_ifs at h with hint
    simp only [Option.some.injEq, Prod.mk.injEq] at h
    obtain ⟨rfl, rfl⟩ := h
    have hprimitive : (primitiveDomain target kind : Option (OrdinalDomain δ)) =
        some ⟨.integer, (integerDomain target ⟨kind, hint⟩).1,
          (integerDomain target ⟨kind, hint⟩).2, none⟩ := by
      unfold primitiveDomain
      split <;> simp_all
    have hp := IntegerPrimitive.bits_cases ⟨kind, hint⟩ target
    have hdomain : integerDomain target ⟨kind, hint⟩ =
        (((IntegerPrimitive.mk kind hint).intType target).lo,
          min ((IntegerPrimitive.mk kind hint).intType target).hi (2^63-1)) := by
      unfold integerDomain
      rw [IntType.lo, IntType.hi, IntegerPrimitive.intType_bits, IntegerPrimitive.intType_signed]
      rcases IntegerPrimitive.intKind_cases ⟨kind, hint⟩ with hk | hk
      · rw [IntegerPrimitive.signed_iff.mpr hk, hk]
        rcases hp with hp | hp | hp | hp <;> rw [hp] <;> decide
      · rw [IntegerPrimitive.not_signed_iff.mpr hk, hk]
        rcases hp with hp | hp | hp | hp <;> rw [hp] <;> decide
    exact ⟨.integer, by rw [hprimitive, hdomain]⟩

theorem foldSigned_denote {v : Int} (h : cxxInt64.Holds v) :
    (foldSigned (.ofInt _ v)).denote = v := by
  obtain ⟨h₁, h₂⟩ := (holds_int64 v).mp h
  have hval : (Word.ofInt cxxInt64 v).val = v := reduce_int64_of_small h₁ h₂
  have heq := foldSigned_eq hval
  rw [foldNumber_of ⟨h₁, by omega⟩, Folded.value.injEq] at heq
  rw [heq, Constant.info_denote]
  rfl

theorem ofBits_denote {bits : Int} {kind : PrimitiveKind} (h₁ : 0 ≤ bits) (h₂ : bits ≤ 2^64-1)
    (h : kind.info.intKind = .unsigned ∨ bits ≤ 2^63-1) :
    (ConstIntExprInfo.ofBits bits kind).denote = bits := by
  have hbits := reduce_uint64_of_nonneg h₁ h₂
  unfold ConstIntExprInfo.denote
  split_ifs with hu
  · exact hbits
  · have hle : bits ≤ 2^63-1 := by
      rcases h with h | h
      · exact absurd (by simp [ConstIntExprInfo.isUnsigned, ConstIntExprInfo.ofBits, h]) hu
      · exact h
    have hval : (ConstIntExprInfo.ofBits bits kind).value.val =
        cxxInt64.reduce (cxxUInt64.reduce bits) := rfl
    rw [hval, hbits, reduce_int64_of_small (by omega) hle]

theorem ofValue_signed_denote {v : Int} {kind : PrimitiveKind} (h : cxxInt64.Holds v)
    (hk : kind.info.intKind = .signed) :
    (ConstIntExprInfo.ofValue (.ofInt _ v) (some kind)).denote = v := by
  have hu : (ConstIntExprInfo.ofValue (.ofInt _ v) (some kind)).isUnsigned = false := by
    simp [ConstIntExprInfo.isUnsigned, ConstIntExprInfo.ofValue, hk]
  simp only [ConstIntExprInfo.denote, hu, Bool.false_eq_true, if_false]
  exact IntType.reduce_of_holds h

theorem primitiveLowHigh_denote {kind : PrimitiveKind} {low high : Int}
    (h : primitiveBounds target kind = some (low, high)) (wantLow : Bool) :
    ∃ info, primitiveLowHigh target wantLow kind = some info ∧
      info.denote = wanted wantLow low high := by
  have hbits {kind : PrimitiveKind} {bits : Int} (hhigh : 0 ≤ bits ∧ bits ≤ 2^64-1)
      (hk : kind.info.intKind = .unsigned ∨ bits ≤ 2^63-1) :
      (ConstIntExprInfo.ofBits (if wantLow then 0 else bits) kind).denote =
        wanted wantLow 0 bits := by
    cases wantLow with
    | true => exact @ofBits_denote 0 kind (by decide) (by decide) (.inr (by decide))
    | false => exact ofBits_denote hhigh.1 hhigh.2 hk
  unfold primitiveBounds at h
  unfold primitiveLowHigh
  split at h
  · cases h
    exact ⟨_, rfl, hbits (by decide) (.inr (by decide))⟩
  · cases h
    exact ⟨_, rfl, hbits (by decide) (.inr (by decide))⟩
  · cases h
    exact ⟨_, rfl, hbits (by decide) (.inr (by decide))⟩
  · split_ifs at h with hint
    simp only [Option.some.injEq, Prod.mk.injEq] at h
    obtain ⟨rfl, rfl⟩ := h
    rw [dif_pos hint]
    have hp := IntegerPrimitive.bits_cases ⟨kind, hint⟩ target
    rw [IntType.lo, IntType.hi, IntegerPrimitive.intType_bits, IntegerPrimitive.intType_signed]
    rcases IntegerPrimitive.intKind_cases ⟨kind, hint⟩ with hk | hk
    · have hkind : kind.info.intKind = .signed := hk
      rw [IntegerPrimitive.signed_iff.mpr hk]
      simp only [hkind, reduceCtorEq, if_false, if_true]
      refine ⟨_, rfl, (ofValue_signed_denote ?_ hkind).trans (by cases wantLow <;> rfl)⟩
      rcases hp with hp | hp | hp | hp <;> rw [hp] <;> cases wantLow <;> decide
    · have hkind : kind.info.intKind = .unsigned := hk
      rw [IntegerPrimitive.not_signed_iff.mpr hk]
      simp only [hkind, if_true, Bool.false_eq_true, if_false]
      refine ⟨_, rfl, hbits ?_ (.inl hkind)⟩
      rcases hp with hp | hp | hp | hp <;> rw [hp] <;> decide

end

namespace TypeRegistry
variable {κ : Type} (r : TypeRegistry κ) (target : TargetInfo)
  (ev : BoundEvaluator κ (Fin r.descriptors))

/-- `eval_const_low_high`; `none` outside when the fuel runs out first. -/
def evalConstLowHigh : Nat → Option (Fin r.size) → Bool → Option (Option ConstIntExprInfo)
  | 0, _, _ => none
  | n+1, type, wantLow => do
    let primitive ← r.primitiveInfoForType n type
    match primitive.bind (primitiveLowHigh target wantLow) with
    | some info => return info
    | none =>
      match (r.payloadShape type).map r.node with
      | some (.tySet element _) => evalConstLowHigh n element wantLow
      | _ => do
        let domain ← r.ordinalDomainForType target ev n type (r.lookupContextForType type)
        return domain.map fun d => foldSigned (.ofInt _ (d.wanted wantLow))

/-- `ord(Low(T))` and `ord(High(T))` in `eval_const_int_expr_impl`. A type without a domain leaves
the value to `eval_ordinal_expr`, which folds the call within. -/
def evalOrdLowHigh (n : Nat) (type : Option (Fin r.size)) (wantLow : Bool) :
    Option (Option ConstIntExprInfo) := do
  let domain ← r.ordinalDomainForType target ev n type (r.lookupContextForType type)
  match domain with
  | some d => return some (foldSigned (.ofInt _ (d.wanted wantLow)))
  | none => return (← r.evalConstLowHigh target ev n type wantLow).map (foldSigned ·.value)

mutual

/-- The ordinal type is declared with these bounds. -/
inductive Declares : Option (Fin r.size) → Int → Int → Prop
  | primitive {type : Option (Fin r.size)} {d : Fin r.descriptors} {s : Fin r.size}
      {kind : PrimitiveKind} {low high : Int} : r.descriptorForType type = some d →
      r.payload d = some s → r.node s = .tyName → r.primitive d = some kind →
      primitiveBounds target kind = some (low, high) → Declares type low high
  | enum {type : Option (Fin r.size)} {d : Fin r.descriptors} {s : Fin r.size}
      {count last : Nat} {low high : Int} : r.payloadShape type = some s →
      r.descriptor s = some d → r.primitive d = none → r.node s = .tyEnum count →
      r.enumMembers d = some (last+1) → ev.enumMemberOrdinal d 0 = some (some low) →
      ev.enumMemberOrdinal d last = some (some high) → cxxInt64.Holds low → cxxInt64.Holds high →
      low ≤ high → Declares type low high
  | distinct {type underlying : Option (Fin r.size)} {d : Fin r.descriptors} {s : Fin r.size}
      {low high : Int} : r.payloadShape type = some s → r.descriptor s = some d →
      r.primitive d = none → r.node s = .tyDistinct underlying → Declares underlying low high →
      Declares type low high
  | subrange {type : Option (Fin r.size)} {d : Fin r.descriptors} {s : Fin r.size} {lo hi : Expr}
      {family : DomainFamily} {key : Option (Fin r.descriptors)} {low high : Int} :
      r.payloadShape type = some s → r.descriptor s = some d → r.primitive d = none →
      r.node s = .tySubrange lo hi → HasBound lo (r.typeContext s) family key low →
      HasBound hi (r.typeContext s) family key high → low ≤ high → Declares type low high

/-- The bound of a subrange: a constant, which is evaluated to its signed value; another ordinal;
or the end of a type, which is evaluated to the end of its domain. -/
inductive HasBound : Expr → Option κ → DomainFamily → Option (Fin r.descriptors) → Int → Prop
  | constant {e : Expr} {context : Option κ} (c : Constant) :
      ev.evalOrdinalExpr e context = some (some ⟨c.info.value.val, .integer, none⟩) →
      HasBound e context .integer none c.value
  | ordinal {e : Expr} {context : Option κ} {family : DomainFamily}
      {key : Option (Fin r.descriptors)} {v : Int} : family ≠ .integer → cxxInt64.Holds v →
      ev.evalOrdinalExpr e context = some (some ⟨v, family, key⟩) →
      HasBound e context family key v
  | lowHigh {e : Expr} {context : Option κ} {type : Option (Fin r.size)}
      {d : OrdinalDomain (Fin r.descriptors)} {low high : Int} (wantLow : Bool) :
      Declares type low high → r.HasDomain target ev type (some d) →
      ev.evalOrdinalExpr e context = some (some ⟨d.wanted wantLow, d.family, d.enumKey⟩) →
      HasBound e context d.family d.enumKey (wanted wantLow low high)

end

/-- Both paths fold both ends of the type to its declared bounds. -/
structure FoldsBounds (type : Option (Fin r.size)) (low high : Int) : Prop where
  const : ∀ wantLow, ∃ n info, r.evalConstLowHigh target ev n type wantLow = some (some info) ∧
    info.denote = wanted wantLow low high
  ord : ∀ wantLow, ∃ n info, r.evalOrdLowHigh target ev n type wantLow = some (some info) ∧
    info.denote = wanted wantLow low high

inductive Hosts (s : Fin r.size) : Option (Fin r.size) → Prop
  | self {type : Option (Fin r.size)} : r.payloadShape type = some s → Hosts s type
  | distinct {type underlying : Option (Fin r.size)} {u : Fin r.size} :
      r.payloadShape type = some u → r.node u = .tyDistinct underlying → Hosts s underlying →
      Hosts s type

/-- The bounds are within 64 bits, and where they are written they are evaluated to themselves. -/
structure EvaluatesBounds (type : Option (Fin r.size)) (low high : Int) : Prop where
  int64 : high ≤ 2^63-1
  written : ∀ s lo hi, r.Hosts s type → r.node s = .tySubrange lo hi → ∃ family key,
    ev.evalOrdinalExpr lo (r.typeContext s) = some (some ⟨low, family, key⟩) ∧
      ev.evalOrdinalExpr hi (r.typeContext s) = some (some ⟨high, family, key⟩)

variable {r target ev}

/-- The domain is what 64 bits hold of the bounds. -/
structure Approximates (d : OrdinalDomain (Fin r.descriptors)) (low high : Int) : Prop where
  int64_low : cxxInt64.Holds d.low
  int64_high : cxxInt64.Holds d.high
  ordered : low ≤ high
  low_le : d.low ≤ low
  high_le : d.high ≤ high

theorem hasDomain_of_bounds {type : Option (Fin r.size)} {s : Fin r.size} {lo hi : Expr}
    {family : DomainFamily} {key : Option (Fin r.descriptors)} {x y : Int}
    (hs : r.payloadShape type = some s) (hn : r.node s = .tySubrange lo hi)
    (hlo : ev.evalOrdinalExpr lo (r.typeContext s) = some (some ⟨x, family, key⟩))
    (hhi : ev.evalOrdinalExpr hi (r.typeContext s) = some (some ⟨y, family, key⟩)) :
    r.HasDomain target ev type (some ⟨family, min x y, max x y, key⟩) := by
  have hb : (r.node s).hasBounds = true := by rw [hn]; rfl
  have hcontext := childContext_of_bounds (descriptor_of_shape hs) hb
  refine ⟨1, ?_⟩
  rw [ordinalDomainForType, semanticShapeType, hs]
  simp [hn, hcontext, hlo, hhi, subrangeDomain]

theorem hasDomain_of_distinct {type underlying : Option (Fin r.size)} {s : Fin r.size}
    {d : Option (OrdinalDomain (Fin r.descriptors))} (hs : r.payloadShape type = some s)
    (hn : r.node s = .tyDistinct underlying) (h : r.HasDomain target ev underlying d) :
    r.HasDomain target ev type d := by
  obtain ⟨n, hn'⟩ := h
  refine ⟨n+1, ?_⟩
  rw [ordinalDomainForType, semanticShapeType, hs]
  simp only [Option.map_some, hn]
  rw [← hn']
  exact ordinalDomainForType_context ..

theorem payloadShape_of_payload {type : Option (Fin r.size)} {d : Fin r.descriptors}
    {s : Fin r.size} (htype : r.descriptorForType type = some d) (hpayload : r.payload d = some s) :
    r.payloadShape type = some s := by
  cases type with
  | none => cases htype
  | some t =>
    have ht : r.descriptor t = some d := htype
    simp [payloadShape, ht, hpayload]

theorem hasDomain_of_primitive {type : Option (Fin r.size)} {d : Fin r.descriptors}
    {s : Fin r.size} {kind : PrimitiveKind} (hs : r.payloadShape type = some s)
    (hd : r.descriptor s = some d) (hname : r.node s = .tyName) (hkind : r.primitive d = some kind) :
    r.HasDomain target ev type (primitiveDomain target kind) := by
  have hinfo : r.primitiveInfoForType 1 (some s) = some (some kind) := by
    simp [primitiveInfoForType, descriptorForType, hd, hkind]
  refine ⟨2, ?_⟩
  rw [ordinalDomainForType, semanticShapeType, hs]
  simp [hname, hinfo]

theorem Hosts.eq_of_shape {type : Option (Fin r.size)} {s u : Fin r.size}
    (h : r.Hosts s type) (hu : r.payloadShape type = some u)
    (hn : ∀ underlying, r.node u ≠ .tyDistinct underlying) : s = u := by
  cases h with
  | self hs => exact Option.some.inj (hs.symm.trans hu)
  | distinct hu' hn' _ =>
    cases Option.some.inj (hu'.symm.trans hu)
    exact absurd hn' (hn _)

theorem evaluatesBounds_of_shape {type : Option (Fin r.size)} {s : Fin r.size} {low high : Int}
    (hs : r.payloadShape type = some s) (hdistinct : ∀ u, r.node s ≠ .tyDistinct u)
    (hsubrange : ∀ lo hi, r.node s ≠ .tySubrange lo hi) :
    r.EvaluatesBounds ev type low high ↔ high ≤ 2^63-1 := by
  constructor
  · intro h
    exact h.int64
  · intro h
    refine ⟨h, fun s' lo hi hhosts hn => ?_⟩
    cases hhosts.eq_of_shape hs hdistinct
    exact absurd hn (hsubrange lo hi)

theorem evaluatesBounds_distinct {type underlying : Option (Fin r.size)} {s : Fin r.size}
    {low high : Int} (hs : r.payloadShape type = some s) (hn : r.node s = .tyDistinct underlying) :
    r.EvaluatesBounds ev underlying low high ↔ r.EvaluatesBounds ev type low high := by
  constructor
  · intro h
    refine ⟨h.int64, fun s' lo hi hhosts hn' => h.written s' lo hi ?_ hn'⟩
    cases hhosts with
    | self hs' =>
      cases Option.some.inj (hs'.symm.trans hs)
      rw [hn] at hn'
      cases hn'
    | distinct hs' hu hhosts =>
      cases Option.some.inj (hs'.symm.trans hs)
      rw [hn] at hu
      cases hu
      exact hhosts
  · intro h
    exact ⟨h.int64, fun s' lo hi hhosts => h.written s' lo hi (.distinct hs hn hhosts)⟩

theorem evaluatesBounds_subrange {type : Option (Fin r.size)} {s : Fin r.size} {lo hi : Expr}
    {family : DomainFamily} {key : Option (Fin r.descriptors)} {x y low high : Int}
    (hs : r.payloadShape type = some s) (hn : r.node s = .tySubrange lo hi)
    (hlo : ev.evalOrdinalExpr lo (r.typeContext s) = some (some ⟨x, family, key⟩))
    (hhi : ev.evalOrdinalExpr hi (r.typeContext s) = some (some ⟨y, family, key⟩))
    (hy : y ≤ 2^63-1) : r.EvaluatesBounds ev type low high ↔ x = low ∧ y = high := by
  constructor
  · intro h
    obtain ⟨family', key', hlow, hhigh⟩ := h.written s lo hi (.self hs) hn
    rw [hlo] at hlow
    rw [hhi] at hhigh
    cases hlow
    cases hhigh
    exact ⟨rfl, rfl⟩
  · rintro ⟨rfl, rfl⟩
    refine ⟨hy, fun s' lo' hi' hhosts hn' => ?_⟩
    cases hhosts.eq_of_shape hs (by simp [hn])
    rw [hn] at hn'
    cases hn'
    exact ⟨family, key, hlo, hhi⟩

theorem Approximates.wanted {d : OrdinalDomain (Fin r.descriptors)} {low high : Int}
    (h : Approximates d low high) (wantLow : Bool) :
    cxxInt64.Holds (d.wanted wantLow) ∧ d.wanted wantLow ≤ Tp2cc.wanted wantLow low high := by
  cases wantLow with
  | true => exact ⟨h.int64_low, h.low_le⟩
  | false => exact ⟨h.int64_high, h.high_le⟩

mutual

theorem Declares.domain {type : Option (Fin r.size)} {low high : Int} :
    r.Declares target ev type low high → ∃ d, r.HasDomain target ev type (some d) ∧
      Approximates d low high ∧
      (d.low = low ∧ d.high = high ↔ r.EvaluatesBounds ev type low high)
  | @Declares.primitive _ _ _ _ _ d s kind _ _ htype hpayload hname hkind hbounds => by
    obtain ⟨h₁, h₂, h₃⟩ := primitiveBounds_int64 hbounds
    have hs := payloadShape_of_payload htype hpayload
    have hdomain : r.HasDomain target ev type _ :=
      hasDomain_of_primitive hs (r.payload_bound d s hpayload) hname hkind
    obtain ⟨family, hprimitive⟩ := primitiveDomain_of_bounds (Fin r.descriptors) hbounds
    rw [hprimitive] at hdomain
    refine ⟨_, hdomain, ⟨?_, ?_, ?_, ?_, ?_⟩, ?_⟩
    · simp only [holds_int64]
      omega
    · simp only [holds_int64]
      omega
    · omega
    · exact le_refl _
    · exact min_le_left _ _
    · rw [evaluatesBounds_of_shape hs (by simp [hname]) (by simp [hname])]
      simp
  | @Declares.enum _ _ _ _ _ d s count last _ _ hs hd hprimitive hn hmembers hlow hhigh hl hh hle => by
    have hdomain : r.HasDomain target ev type (some ⟨.enum, low, high, some d⟩) := by
      refine ⟨1, ?_⟩
      rw [ordinalDomainForType, semanticShapeType, hs]
      simp [hn, enumDomain, hd, hmembers, hlow, hhigh]
    refine ⟨_, hdomain, ⟨hl, hh, hle, le_refl _, le_refl _⟩, ?_⟩
    rw [evaluatesBounds_of_shape hs (by simp [hn]) (by simp [hn])]
    exact iff_of_true ⟨rfl, rfl⟩ hh.2
  | .distinct hs hd hprimitive hn hu => by
    obtain ⟨d, hdomain, happrox, hiff⟩ := hu.domain
    exact ⟨d, hasDomain_of_distinct hs hn hdomain, happrox,
      hiff.trans (evaluatesBounds_distinct hs hn)⟩
  | .subrange hs hd hprimitive hn hlo hhi hle => by
    obtain ⟨x, hx, hholdx, hlex⟩ := hlo.evaluated
    obtain ⟨y, hy, hholdy, hley⟩ := hhi.evaluated
    rw [evaluatesBounds_subrange hs hn hx hy hholdy.2]
    rw [holds_int64] at hholdx hholdy
    refine ⟨_, hasDomain_of_bounds hs hn hx hy, ⟨?_, ?_, hle, ?_, ?_⟩, ?_⟩ <;>
      simp only [holds_int64] <;> omega

theorem HasBound.evaluated {e : Expr} {context : Option κ} {family : DomainFamily}
    {key : Option (Fin r.descriptors)} {v : Int} :
    r.HasBound target ev e context family key v →
    ∃ x, ev.evalOrdinalExpr e context = some (some ⟨x, family, key⟩) ∧ cxxInt64.Holds x ∧ x ≤ v
  | .constant c heval => by
    refine ⟨_, heval, Word.mem _, ?_⟩
    have hc := c.representable
    unfold Representable at hc
    rw [Constant.info_value, Word.ofInt_val]
    by_cases hv : c.value ≤ 2^63-1
    · rw [reduce_int64_of_small hc.1 hv]
    · rw [reduce_int64_of_large (by omega) hc.2]
      omega
  | .ordinal hfamily hheld heval => ⟨v, heval, hheld, le_refl _⟩
  | .lowHigh wantLow htype hdomain heval => by
    obtain ⟨d, hd, happrox, -⟩ := htype.domain
    cases hdomain.unique hd
    exact ⟨_, heval, happrox.wanted wantLow⟩

end

theorem primitiveInfoForType_mono {n m : Nat} (hle : n ≤ m) {type : Option (Fin r.size)}
    {info : Option PrimitiveKind} (h : r.primitiveInfoForType n type = some info) :
    r.primitiveInfoForType m type = some info := by
  induction hle with
  | refl => exact h
  | step _ ih => exact primitiveInfoForType_succ ih

theorem evalConstLowHigh_domain {type : Option (Fin r.size)} {s : Fin r.size}
    {d : OrdinalDomain (Fin r.descriptors)} {n : Nat} (hs : r.payloadShape type = some s)
    (hset : ∀ element bounds, r.node s ≠ .tySet element bounds)
    (hinfo : r.primitiveInfoForType n type = some none) (hd : r.HasDomain target ev type (some d))
    (wantLow : Bool) : ∃ n, r.evalConstLowHigh target ev n type wantLow =
      some (some (foldSigned (.ofInt _ (d.wanted wantLow)))) := by
  obtain ⟨m, hm⟩ := hd
  have hinfo' := primitiveInfoForType_mono (Nat.le_max_left n m) hinfo
  have hm' := ordinalDomainForType_mono (Nat.le_max_right n m) hm
  rw [ordinalDomainForType_context _ _ none (r.lookupContextForType type)] at hm'
  refine ⟨max n m+1, ?_⟩
  rw [evalConstLowHigh, hinfo', hs]
  simp only [Option.bind_eq_bind, Option.bind_some, Option.bind_none, Option.map_some]
  split
  · rename_i element bounds hn
    exact absurd (Option.some.inj hn) (hset element bounds)
  · rw [hm']
    rfl

/-- The type is no set, and a primitive has the bounds. -/
def HasInfo (r : TypeRegistry κ) (target : TargetInfo) (type : Option (Fin r.size))
    (low high : Int) : Prop :=
  ∃ s, r.payloadShape type = some s ∧ (∀ element bounds, r.node s ≠ .tySet element bounds) ∧
    ∃ n info, r.primitiveInfoForType n type = some info ∧
      ∀ kind ∈ info, primitiveBounds target kind = some (low, high)

theorem hasInfo_primitive {type : Option (Fin r.size)} {d : Fin r.descriptors} {s : Fin r.size}
    {kind : PrimitiveKind} {low high : Int} (htype : r.descriptorForType type = some d)
    (hpayload : r.payload d = some s) (hname : r.node s = .tyName)
    (hkind : r.primitive d = some kind)
    (hbounds : primitiveBounds target kind = some (low, high)) :
    r.HasInfo target type low high := by
  refine ⟨s, payloadShape_of_payload htype hpayload, by simp [hname], 1, some kind, ?_, ?_⟩
  · simp [primitiveInfoForType, htype, hkind]
  · intro kind' hmem
    rw [← Option.mem_some.mp hmem]
    exact hbounds

theorem hasInfo_bounded {type : Option (Fin r.size)} {d : Fin r.descriptors} {s : Fin r.size}
    {low high : Int} (hs : r.payloadShape type = some s) (hd : r.descriptor s = some d)
    (hprimitive : r.primitive d = none)
    (hn : (∃ count, r.node s = .tyEnum count) ∨ ∃ lo hi, r.node s = .tySubrange lo hi) :
    r.HasInfo target type low high := by
  have htype := (descriptor_of_payloadShape hs).trans hd
  rcases hn with ⟨count, hn⟩ | ⟨lo, hi, hn⟩
  · refine ⟨s, hs, by simp [hn], 1, none, ?_, by simp⟩
    simp [primitiveInfoForType, htype, hprimitive, hs, hn]
  · refine ⟨s, hs, by simp [hn], 1, none, ?_, by simp⟩
    simp [primitiveInfoForType, htype, hprimitive, hs, hn]

theorem HasInfo.distinct {type underlying : Option (Fin r.size)} {d : Fin r.descriptors}
    {s : Fin r.size} {low high : Int} (hu : r.HasInfo target underlying low high)
    (hs : r.payloadShape type = some s) (hd : r.descriptor s = some d)
    (hprimitive : r.primitive d = none) (hn : r.node s = .tyDistinct underlying) :
    r.HasInfo target type low high := by
  obtain ⟨-, -, -, n, info, hinfo, hbounds⟩ := hu
  have htype := (descriptor_of_payloadShape hs).trans hd
  refine ⟨s, hs, by simp [hn], n+1, info, ?_, hbounds⟩
  simp [primitiveInfoForType, htype, hprimitive, hs, hn, hinfo]

theorem Declares.info {type : Option (Fin r.size)} {low high : Int} :
    r.Declares target ev type low high → r.HasInfo target type low high
  | .primitive htype hpayload hname hkind hbounds =>
    hasInfo_primitive htype hpayload hname hkind hbounds
  | .enum hs hd hprimitive hn _ _ _ _ _ _ => hasInfo_bounded hs hd hprimitive (.inl ⟨_, hn⟩)
  | .subrange hs hd hprimitive hn _ _ _ => hasInfo_bounded hs hd hprimitive (.inr ⟨_, _, hn⟩)
  | .distinct hs hd hprimitive hn hu => hu.info.distinct hs hd hprimitive hn

theorem Declares.const {type : Option (Fin r.size)} {low high : Int}
    (h : r.Declares target ev type low high) {d : OrdinalDomain (Fin r.descriptors)}
    (hd : r.HasDomain target ev type (some d)) (wantLow : Bool) :
    ∃ n info, r.evalConstLowHigh target ev n type wantLow = some (some info) ∧
      (info.denote = wanted wantLow low high ∨
        info = foldSigned (.ofInt _ (d.wanted wantLow))) := by
  obtain ⟨s, hs, hset, n, info, hinfo, hbounds⟩ := h.info
  cases info with
  | none =>
    obtain ⟨m, hm⟩ := evalConstLowHigh_domain hs hset hinfo hd wantLow
    exact ⟨m, _, hm, .inr rfl⟩
  | some kind =>
    obtain ⟨result, hresult, hdenote⟩ := primitiveLowHigh_denote (hbounds kind rfl) wantLow
    refine ⟨n+1, result, ?_, .inl hdenote⟩
    rw [evalConstLowHigh, hinfo]
    simp [hresult]

theorem evalOrdLowHigh_eq {type : Option (Fin r.size)} {d : OrdinalDomain (Fin r.descriptors)}
    (hd : r.HasDomain target ev type (some d)) {n : Nat} {wantLow : Bool}
    {info : ConstIntExprInfo} (h : r.evalOrdLowHigh target ev n type wantLow = some (some info)) :
    info = foldSigned (.ofInt _ (d.wanted wantLow)) := by
  rw [evalOrdLowHigh, ordinalDomainForType_context _ _ _ none] at h
  cases hn : r.ordinalDomainForType target ev n type none with
  | none =>
    rw [hn] at h
    cases h
  | some found =>
    have hsame := HasDomain.unique ⟨n, hn⟩ hd
    rw [hn, hsame] at h
    cases h
    rfl

/-- Both paths fold the ends of a type to its declared bounds exactly where the bounds are within 64
bits and evaluated to themselves. -/
theorem foldsBounds_iff {type : Option (Fin r.size)} {low high : Int}
    (h : r.Declares target ev type low high) :
    r.FoldsBounds target ev type low high ↔ r.EvaluatesBounds ev type low high := by
  obtain ⟨d, hd, happrox, hiff⟩ := h.domain
  have hdenote (wantLow : Bool) := foldSigned_denote (happrox.wanted wantLow).1
  rw [← hiff]
  constructor
  · intro hfolds
    have hend (wantLow : Bool) : d.wanted wantLow = wanted wantLow low high := by
      obtain ⟨n, info, hrun, hvalue⟩ := hfolds.ord wantLow
      rw [evalOrdLowHigh_eq hd hrun, hdenote] at hvalue
      exact hvalue
    exact ⟨hend true, hend false⟩
  · rintro ⟨rfl, rfl⟩
    refine ⟨fun wantLow => ?_, fun wantLow => ?_⟩
    · obtain ⟨n, info, hrun, hvalue⟩ := h.const hd wantLow
      refine ⟨n, info, hrun, ?_⟩
      rcases hvalue with hvalue | rfl
      · exact hvalue
      · exact hdenote wantLow
    · obtain ⟨n, hn⟩ := hd
      refine ⟨n, _, ?_, hdenote wantLow⟩
      rw [evalOrdLowHigh, ordinalDomainForType_context _ _ _ none, hn]
      rfl

theorem evaluatesBounds_constants {type : Option (Fin r.size)} {s : Fin r.size} {lo hi : Expr}
    {low high : Constant} (hs : r.payloadShape type = some s) (hn : r.node s = .tySubrange lo hi)
    (hlo : ev.evalOrdinalExpr lo (r.typeContext s) =
      some (some ⟨low.info.value.val, .integer, none⟩))
    (hhi : ev.evalOrdinalExpr hi (r.typeContext s) =
      some (some ⟨high.info.value.val, .integer, none⟩)) (hle : low.value ≤ high.value) :
    r.EvaluatesBounds ev type low.value high.value ↔ high.value ≤ 2^63-1 := by
  have hrep := low.representable
  have hrep' := high.representable
  unfold Representable at hrep hrep'
  constructor
  · intro h
    exact h.int64
  · intro h
    rw [evaluatesBounds_subrange hs hn hlo hhi (int64_bounds _).2]
    exact ⟨reduce_int64_of_small hrep.1 (by omega), reduce_int64_of_small hrep'.1 h⟩

/-- A bound of 64 bits: a constant, another ordinal, or the end of a type whose own bounds are
evaluated to themselves. -/
inductive NamesBound (r : TypeRegistry κ) (target : TargetInfo)
    (ev : BoundEvaluator κ (Fin r.descriptors)) :
    Expr → Option κ → DomainFamily → Option (Fin r.descriptors) → Int → Prop
  | constant {e : Expr} {context : Option κ} (c : Constant) : c.value ≤ 2^63-1 →
      ev.evalOrdinalExpr e context = some (some ⟨c.info.value.val, .integer, none⟩) →
      NamesBound r target ev e context .integer none c.value
  | ordinal {e : Expr} {context : Option κ} {family : DomainFamily}
      {key : Option (Fin r.descriptors)} {v : Int} : family ≠ .integer → cxxInt64.Holds v →
      ev.evalOrdinalExpr e context = some (some ⟨v, family, key⟩) →
      NamesBound r target ev e context family key v
  | lowHigh {e : Expr} {context : Option κ} {type : Option (Fin r.size)}
      {d : OrdinalDomain (Fin r.descriptors)} {low high : Int} (wantLow : Bool) :
      r.Declares target ev type low high → r.EvaluatesBounds ev type low high →
      r.HasDomain target ev type (some d) →
      ev.evalOrdinalExpr e context = some (some ⟨d.wanted wantLow, d.family, d.enumKey⟩) →
      NamesBound r target ev e context d.family d.enumKey (wanted wantLow low high)

theorem NamesBound.evaluated {e : Expr} {context : Option κ} {family : DomainFamily}
    {key : Option (Fin r.descriptors)} {v : Int} (h : r.NamesBound target ev e context family key v) :
    ev.evalOrdinalExpr e context = some (some ⟨v, family, key⟩) ∧ v ≤ 2^63-1 := by
  cases h with
  | constant c hc heval =>
    have hrep := c.representable
    unfold Representable at hrep
    have hvalue : c.info.value.val = c.value := reduce_int64_of_small hrep.1 hc
    rw [heval, hvalue]
    exact ⟨rfl, hc⟩
  | ordinal _ hv heval => exact ⟨heval, hv.2⟩
  | lowHigh wantLow htype hbounds hd heval =>
    obtain ⟨d', hd', happrox, hiff⟩ := htype.domain
    cases hd'.unique hd
    obtain ⟨hlow, hhigh⟩ := hiff.mpr hbounds
    subst hlow hhigh
    exact ⟨heval, (happrox.wanted wantLow).1.2⟩

theorem evaluatesBounds_named {type : Option (Fin r.size)} {s : Fin r.size} {lo hi : Expr}
    {family : DomainFamily} {key : Option (Fin r.descriptors)} {low high : Int}
    (hs : r.payloadShape type = some s) (hn : r.node s = .tySubrange lo hi)
    (hlo : r.NamesBound target ev lo (r.typeContext s) family key low)
    (hhi : r.NamesBound target ev hi (r.typeContext s) family key high) :
    r.EvaluatesBounds ev type low high :=
  (evaluatesBounds_subrange hs hn hlo.evaluated.1 hhi.evaluated.1 hhi.evaluated.2).mpr ⟨rfl, rfl⟩

end TypeRegistry

def primitiveRegistry (kind : PrimitiveKind) : TypeRegistry Unit where
  size := 1
  descriptors := 1
  node _ := .tyName
  descriptor _ := some ⟨0, Nat.one_pos⟩
  typeContext _ := none
  payload _ := some ⟨0, Nat.one_pos⟩
  primitive _ := some kind
  enumMembers _ := none
  payload_bound _ _ _ := congrArg some (Subsingleton.elim _ _)
  metaclass_name _ _ _ h := by cases h
  metaclass_primitive _ h := by cases h
  bounds_scoped _ _ h := by cases h

theorem declares_small :
    (subrangeRegistry (negativeBound 5) (.intLit 10)).Declares ⟨64, TargetInfo.sixtyFour⟩
      literalBounds (some (0 : Fin 1)) (-5) 10 :=
  @TypeRegistry.Declares.subrange _ _ _ _ _ (0 : Fin 1) (0 : Fin 1) _ _ _ _ _ _ rfl rfl rfl rfl
    (.constant (.ofNumber (-5) (by decide)) rfl) (.constant (.ofNumber 10 (by decide)) rfl)
    (by decide)

theorem foldsBounds_small :
    (subrangeRegistry (negativeBound 5) (.intLit 10)).FoldsBounds ⟨64, TargetInfo.sixtyFour⟩
      literalBounds (some (0 : Fin 1)) (-5) 10 := by
  refine (TypeRegistry.foldsBounds_iff declares_small).mpr ?_
  exact (@TypeRegistry.evaluatesBounds_subrange _ _ _ _ (0 : Fin 1) _ _ _ _ _ _ _ _ rfl rfl rfl rfl
    (by decide)).mpr ⟨rfl, rfl⟩

/-- `ord(High(QWord))` is not the last value of the type. -/
theorem not_foldsBounds_qWord :
    let r := primitiveRegistry .qWord
    r.Declares ⟨64, TargetInfo.sixtyFour⟩ literalBounds (some (0 : Fin 1)) 0 (2^64-1) ∧
      ¬ r.FoldsBounds ⟨64, TargetInfo.sixtyFour⟩ literalBounds (some (0 : Fin 1)) 0 (2^64-1) := by
  intro r
  have hdomain : r.HasDomain ⟨64, TargetInfo.sixtyFour⟩ literalBounds (some (0 : Fin 1))
      (some ⟨.integer, 0, 2^63-1, none⟩) := ⟨2, rfl⟩
  refine ⟨@TypeRegistry.Declares.primitive _ _ _ _ _ (0 : Fin 1) (0 : Fin 1) .qWord _ _ rfl rfl rfl
    rfl rfl, fun h => ?_⟩
  obtain ⟨n, info, hrun, hvalue⟩ := h.ord false
  rw [TypeRegistry.evalOrdLowHigh_eq hdomain hrun, foldSigned_denote (by decide)] at hvalue
  revert hvalue
  decide

end Tp2cc
