import Tp2cc.Analysis.SetOperation

/-! Which conversions of sets are accepted, and that the result of an operation on sets loses no
element. -/
set_option autoImplicit false

namespace Tp2cc
open Graph

section
variable {δ : Type}

/-- All ordinals of `e` are ordinals of `d`, of the same family and for an enum of the same one. -/
structure OrdinalDomain.Covers (d e : OrdinalDomain δ) : Prop where
  family : e.family = d.family
  enumKey : d.family = .enum → e.enumKey = d.enumKey
  low : d.low ≤ e.low
  high : e.high ≤ d.high

/-- Bounds as the code holds them, in two `int64_t`, and in order. -/
structure OrdinalDomain.Int64 (d : OrdinalDomain δ) : Prop where
  ordered : d.low ≤ d.high
  low : cxxInt64.Holds d.low
  high : cxxInt64.Holds d.high

theorem OrdinalDomain.Covers.refl (d : OrdinalDomain δ) : d.Covers d :=
  ⟨rfl, fun _ => rfl, le_refl _, le_refl _⟩

theorem OrdinalDomain.Covers.trans {d e f : OrdinalDomain δ} (h : d.Covers e) (k : e.Covers f) :
    d.Covers f where
  family := k.family.trans h.family
  enumKey hf := (k.enumKey (h.family.trans hf)).trans (h.enumKey hf)
  low := h.low.trans k.low
  high := k.high.trans h.high

theorem familyCompatible_iff [DecidableEq δ] {source dest : OrdinalDomain δ} :
    familyCompatible source dest = true ↔
      source.family = dest.family ∧ (dest.family = .enum → source.enumKey = dest.enumKey) := by
  unfold familyCompatible
  cases h : dest.family with
  | enum => simp
  | _ => simp

@[simp] theorem withBounds_family (d : OrdinalDomain δ) (bounds : Option (Int × Int)) :
    (d.withBounds bounds).family = d.family := by
  cases bounds with
  | none => rfl
  | some bounds => rfl

@[simp] theorem withBounds_enumKey (d : OrdinalDomain δ) (bounds : Option (Int × Int)) :
    (d.withBounds bounds).enumKey = d.enumKey := by
  cases bounds with
  | none => rfl
  | some bounds => rfl

end

namespace TypeRegistry
variable {κ : Type} {r : TypeRegistry κ} {target : TargetInfo}
  {ev : BoundEvaluator κ (Fin r.descriptors)}

/-! The shape of a set type. -/

theorem canonicalSetType_spec {t c : SetTypeExpr (Fin r.size)} (h : r.canonicalSetType t = some c) :
    r.setShape c = r.setShape t ∧ r.canonicalSetType c = some c := by
  unfold canonicalSetType at h
  split at h
  next hset =>
    cases t with
    | inferred element low high =>
      cases h
      exact ⟨rfl, rfl⟩
    | bound type =>
      obtain ⟨s, hs, rfl⟩ := Option.map_eq_some_iff.mp h
      have hself := payloadShape_shape hs
      have hshape : r.setShape (.bound s) = r.setShape (.bound type) := by
        simp [setShape, hs, hself]
      refine ⟨hshape, ?_⟩
      rw [canonicalSetType, if_pos (hshape ▸ hset), hself]
      rfl
  next => cases h

theorem exists_canonicalSetType {t : SetTypeExpr (Fin r.size)}
    {shape : Option (Fin r.size) × Option (Int × Int)} (h : r.setShape t = some shape) :
    ∃ c, r.canonicalSetType t = some c := by
  cases t with
  | inferred element low high => exact ⟨_, rfl⟩
  | bound type =>
    cases hs : r.payloadShape (some type) with
    | none => simp [setShape, hs] at h
    | some s => exact ⟨.bound s, by simp [canonicalSetType, h, hs]⟩

theorem ordinalDomainForSetType_of_shape {t : SetTypeExpr (Fin r.size)}
    {element : Option (Fin r.size)} {bounds : Option (Int × Int)}
    (h : r.setShape t = some (element,bounds)) (n : Nat) :
    r.ordinalDomainForSetType target ev n t =
      (r.ordinalDomainForType target ev n element none).map (·.map (·.withBounds bounds)) := by
  cases t with
  | inferred element low high =>
    cases h
    rw [ordinalDomainForSetType]
    cases r.ordinalDomainForType target ev n (some element) none <;> rfl
  | bound type =>
    cases hs : r.payloadShape (some type) with
    | none => simp [setShape, hs] at h
    | some s =>
      cases hn : r.node s with
      | tySet element' bounds' =>
        simp only [setShape, hs, Option.map_some, hn, Option.some.injEq, Prod.mk.injEq] at h
        obtain ⟨rfl, rfl⟩ := h
        rw [ordinalDomainForSetType, semanticShapeType, hs]
        simp only [Option.map_some, hn]
        rw [ordinalDomainForType_context n element' _ none]
        cases r.ordinalDomainForType target ev n element' none <;> rfl
      | _ => simp [setShape, hs, hn] at h

theorem ordinalDomainForSetType_of_none {t : SetTypeExpr (Fin r.size)} (h : r.setShape t = none)
    (n : Nat) : r.ordinalDomainForSetType target ev n t = some none := by
  cases t with
  | inferred element low high => cases h
  | bound type =>
    rw [ordinalDomainForSetType, semanticShapeType]
    cases hs : r.payloadShape (some type) with
    | none => rfl
    | some s =>
      simp only [Option.map_some]
      cases hn : r.node s with
      | tySet element bounds => simp [setShape, hs, hn] at h
      | _ => rfl

def HasSetDomain (r : TypeRegistry κ) (target : TargetInfo)
    (ev : BoundEvaluator κ (Fin r.descriptors)) (t : SetTypeExpr (Fin r.size))
    (d : OrdinalDomain (Fin r.descriptors)) : Prop :=
  ∃ n, r.ordinalDomainForSetType target ev n t = some (some d)

theorem hasSetDomain_iff {t : SetTypeExpr (Fin r.size)} {d : OrdinalDomain (Fin r.descriptors)} :
    r.HasSetDomain target ev t d ↔ ∃ element bounds e, r.setShape t = some (element,bounds) ∧
      r.HasDomain target ev element (some e) ∧ d = e.withBounds bounds := by
  constructor
  · rintro ⟨n, hn⟩
    cases hshape : r.setShape t with
    | none =>
      rw [ordinalDomainForSetType_of_none hshape] at hn
      cases hn
    | some shape =>
      obtain ⟨element, bounds⟩ := shape
      rw [ordinalDomainForSetType_of_shape hshape] at hn
      obtain ⟨o, ho, hmap⟩ := Option.map_eq_some_iff.mp hn
      obtain ⟨e, rfl, he⟩ := Option.map_eq_some_iff.mp hmap
      exact ⟨element, bounds, e, rfl, ⟨n, ho⟩, he.symm⟩
  · rintro ⟨element, bounds, e, hshape, ⟨n, hn⟩, rfl⟩
    refine ⟨n, ?_⟩
    rw [ordinalDomainForSetType_of_shape hshape, hn]
    rfl

theorem ordinalDomainForSetType_mono {n m : Nat} (hle : n ≤ m) {t : SetTypeExpr (Fin r.size)}
    {d : Option (OrdinalDomain (Fin r.descriptors))}
    (h : r.ordinalDomainForSetType target ev n t = some d) :
    r.ordinalDomainForSetType target ev m t = some d := by
  cases hshape : r.setShape t with
  | none =>
    rw [ordinalDomainForSetType_of_none hshape] at h ⊢
    exact h
  | some shape =>
    obtain ⟨element, bounds⟩ := shape
    rw [ordinalDomainForSetType_of_shape hshape] at h ⊢
    obtain ⟨o, ho, hmap⟩ := Option.map_eq_some_iff.mp h
    rw [ordinalDomainForType_mono hle ho, ← hmap]
    rfl

theorem HasSetDomain.unique {t : SetTypeExpr (Fin r.size)}
    {d d' : OrdinalDomain (Fin r.descriptors)} (h : r.HasSetDomain target ev t d)
    (h' : r.HasSetDomain target ev t d') : d = d' := by
  obtain ⟨n, hn⟩ := h
  obtain ⟨m, hm⟩ := h'
  have h₁ := ordinalDomainForSetType_mono (Nat.le_max_left n m) hn
  have h₂ := ordinalDomainForSetType_mono (Nat.le_max_right n m) hm
  exact Option.some.inj (Option.some.inj (h₁.symm.trans h₂))

theorem hasSetDomain_canonical {t c : SetTypeExpr (Fin r.size)}
    (h : r.canonicalSetType t = some c) {d : OrdinalDomain (Fin r.descriptors)} :
    r.HasSetDomain target ev c d ↔ r.HasSetDomain target ev t d := by
  rw [hasSetDomain_iff, hasSetDomain_iff, (canonicalSetType_spec h).1]

/-! Comparing the elements returns. -/

theorem HasDomain.shape {a : Option (Fin r.size)} {d : OrdinalDomain (Fin r.descriptors)}
    (h : r.HasDomain target ev a (some d)) :
    ∃ s, r.payloadShape a = some s ∧ r.HasDomain target ev (some s) (some d) := by
  obtain ⟨n, hn⟩ := h
  cases n with
  | zero => cases hn
  | succ n =>
    cases hs : r.payloadShape a with
    | none => simp [ordinalDomainForType, semanticShapeType, hs] at hn
    | some s =>
      refine ⟨s, rfl, n+1, ?_⟩
      have hself := payloadShape_shape hs
      rw [ordinalDomainForType, semanticShapeType, hs] at hn
      rw [ordinalDomainForType, semanticShapeType, hself]
      simp only [Option.map_some] at hn ⊢
      cases hnode : r.node s with
      | tyDistinct underlying =>
        simp only [hnode] at hn ⊢
        rw [ordinalDomainForType_context n underlying _ none] at hn ⊢
        exact hn
      | tySubrange lo hi =>
        have hb : (r.node s).hasBounds = true := by rw [hnode]; rfl
        simp only [hnode, childContext_of_bounds (descriptor_of_shape hs) hb] at hn ⊢
        exact hn
      | _ =>
        simp only [hnode] at hn ⊢
        exact hn

theorem pointerShape_none_of_domain {s : Fin r.size} (hs : r.payloadShape (some s) = some s)
    {d : OrdinalDomain (Fin r.descriptors)} (h : r.HasDomain target ev (some s) (some d))
    (context : Option κ) : r.pointerShape s context = none := by
  rcases pointerShape_context s context with hnone | ⟨p, c₁, c₂, -, hp⟩
  · exact hnone.1
  · cases (hasDomain_none_of_pointer hs hp).unique h

theorem sameTypeAstInContext_mono {n m : Nat} (hle : n ≤ m) {a b : Option (Fin r.size)}
    {ac bc : Option κ} {same : Bool}
    (h : r.sameTypeAstInContext target ev n a ac b bc = some same) :
    r.sameTypeAstInContext target ev m a ac b bc = some same := by
  rw [sameTypeAstInContext_eq] at h ⊢
  obtain ⟨answer, hanswer, hsame⟩ := Option.map_eq_some_iff.mp h
  rw [Comparison.answer_mono hle hanswer, ← hsame]
  rfl

theorem HasDomain.node_cases {s : Fin r.size} (hs : r.payloadShape (some s) = some s)
    {d : OrdinalDomain (Fin r.descriptors)} (h : r.HasDomain target ev (some s) (some d)) :
    (∃ u, r.node s = .tyDistinct u) ∨ (∃ lo hi, r.node s = .tySubrange lo hi) ∨
      (∃ k, r.node s = .tyEnum k) ∨ r.node s = .tyName := by
  by_contra hno
  simp only [not_or, not_exists] at hno
  cases (hasDomain_none hs hno.1 hno.2.1 hno.2.2.1 hno.2.2.2).unique h

theorem HasDomain.bounds {s : Fin r.size} (hs : r.payloadShape (some s) = some s)
    {d : OrdinalDomain (Fin r.descriptors)} (h : r.HasDomain target ev (some s) (some d))
    {lo hi : Expr} (hn : r.node s = .tySubrange lo hi) :
    ∃ low high, ev.evalOrdinalExpr lo (r.typeContext s) = some low ∧
      ev.evalOrdinalExpr hi (r.typeContext s) = some high := by
  obtain ⟨n, hd⟩ := h
  cases n with
  | zero => cases hd
  | succ n =>
    have hb : (r.node s).hasBounds = true := by rw [hn]; rfl
    rw [ordinalDomainForType, semanticShapeType, hs] at hd
    simp only [Option.map_some, hn, childContext_of_bounds (descriptor_of_shape hs) hb,
      Option.bind_eq_bind, Option.bind_eq_some_iff] at hd
    obtain ⟨low, hlow, high, hhigh, -⟩ := hd
    exact ⟨low, high, hlow, hhigh⟩

theorem exists_sameShapes {s t : Fin r.size} (hs : r.payloadShape (some s) = some s)
    (ht : r.payloadShape (some t) = some t) {d e : OrdinalDomain (Fin r.descriptors)}
    (hd : r.HasDomain target ev (some s) (some d)) (he : r.HasDomain target ev (some t) (some e))
    (compare : Option (Fin r.size) → Option κ → Option (Fin r.size) → Option κ → Option Bool)
    (n : Nat) (ac bc : Option κ) :
    ∃ same, r.sameShapes target ev compare n s (r.childContext (some s) ac) t
      (r.childContext (some t) bc) = some same := by
  rcases hd.node_cases hs with ⟨u, hu⟩ | ⟨lo, hi, hlohi⟩ | ⟨k, hk⟩ | hname
  · exact ⟨false, by simp [sameShapes, hu]⟩
  · rcases he.node_cases ht with ⟨u, hu⟩ | ⟨lo', hi', hlohi'⟩ | ⟨k, hk⟩ | hname
    · exact ⟨false, by simp [sameShapes, hlohi, hu]⟩
    · obtain ⟨low, high, hlow, hhigh⟩ := hd.bounds hs hlohi
      obtain ⟨low', high', hlow', hhigh'⟩ := he.bounds ht hlohi'
      have hb : (r.node s).hasBounds = true := by rw [hlohi]; rfl
      have hb' : (r.node t).hasBounds = true := by rw [hlohi']; rfl
      exact ⟨_, by simp [sameShapes, hlohi, hlohi', sameBounds,
        childContext_of_bounds (descriptor_of_shape hs) hb,
        childContext_of_bounds (descriptor_of_shape ht) hb', hlow, hhigh, hlow', hhigh']; rfl⟩
    · exact ⟨false, by simp [sameShapes, hlohi, hk]⟩
    · exact ⟨false, by simp [sameShapes, hlohi, hname]⟩
  · exact ⟨false, by simp [sameShapes, hk]⟩
  · rcases he.node_cases ht with ⟨u, hu⟩ | ⟨lo', hi', hlohi'⟩ | ⟨k, hk⟩ | hname'
    · exact ⟨false, by simp [sameShapes, hname, hu]⟩
    · exact ⟨false, by simp [sameShapes, hname, hlohi']⟩
    · exact ⟨false, by simp [sameShapes, hname, hk]⟩
    · exact ⟨r.sameDescriptor (some s) (some t), by simp [sameShapes, hname, hname']⟩

theorem exists_sameTypeAst {a b : Option (Fin r.size)} {d e : OrdinalDomain (Fin r.descriptors)}
    (ha : r.HasDomain target ev a (some d)) (hb : r.HasDomain target ev b (some e)) :
    ∃ n same, r.sameTypeAst target ev n a b = some same := by
  obtain ⟨s, hs, hd⟩ := ha.shape
  obtain ⟨t, ht, he⟩ := hb.shape
  have hself := payloadShape_shape hs
  have hself' := payloadShape_shape ht
  obtain ⟨n, hn⟩ := hd
  obtain ⟨m, hm⟩ := he
  have hsame (ac bc : Option κ) : ∃ same,
      r.sameOrdinalDomain target ev (max n m) (some s) ac (some t) bc = some same := by
    refine ⟨sameDomain (some d) (some e), ?_⟩
    rw [sameOrdinalDomain_context, sameOrdinalDomain,
      ordinalDomainForType_mono (Nat.le_max_left n m) hn,
      ordinalDomainForType_mono (Nat.le_max_right n m) hm]
    rfl
  refine ⟨max n m+1, ?_⟩
  rw [sameTypeAst, sameTypeAstInContext]
  cases r.sameDescriptor a b with
  | true => exact ⟨true, rfl⟩
  | false =>
    simp only [semanticShapeType, hs, ht, Option.map_some, Bool.false_eq_true, if_false]
    by_cases hst : s = t
    · exact ⟨true, if_pos hst⟩
    · rw [if_neg hst, differentShapes, pointerShape_none_of_domain hself ⟨n, hn⟩]
      obtain ⟨same, hsame⟩ := hsame (r.childContext (some s) (r.childContext a (r.childContext a
        (r.lookupContextForType a)))) (r.childContext (some t) (r.childContext b (r.childContext b
          (r.lookupContextForType b))))
      simp only [hsame, Option.bind_eq_bind, Option.bind_some]
      cases same with
      | true => exact ⟨true, rfl⟩
      | false => exact exists_sameShapes hself hself' ⟨n, hn⟩ ⟨m, hm⟩ ..

/-! Conversions. -/

theorem HasSetDomain.canonical {t : SetTypeExpr (Fin r.size)}
    {d : OrdinalDomain (Fin r.descriptors)} (h : r.HasSetDomain target ev t d) :
    ∃ c element e, r.canonicalSetType t = some c ∧ (r.setShape c).bind (·.1) = element ∧
      r.HasDomain target ev element (some e) ∧ r.HasSetDomain target ev c d := by
  obtain ⟨element, bounds, e, hshape, he, hd⟩ := hasSetDomain_iff.mp h
  obtain ⟨c, hc⟩ := exists_canonicalSetType hshape
  have hshape' := (canonicalSetType_spec hc).1.trans hshape
  exact ⟨c, element, e, hc, by rw [hshape']; rfl, he, (hasSetDomain_canonical hc).mpr h⟩

theorem classifyDomains_covers {n : Nat} {a b : Option (Fin r.size)}
    {source dest : OrdinalDomain (Fin r.descriptors)} {kind : SetConversionKind}
    (h : r.classifyDomains target ev n a b source dest = some kind) (hkind : kind ≠ .incompatible) :
    dest.Covers source := by
  unfold classifyDomains at h
  split_ifs at h with hfamily hbounds
  · cases h
    contradiction
  · cases h
    contradiction
  all_goals
    obtain ⟨hsame, hkey⟩ := familyCompatible_iff.mp (Bool.not_eq_false _ ▸ hfamily)
    rw [not_or, not_lt, gt_iff_lt, not_lt] at hbounds
    exact ⟨hsame, hkey, hbounds.1, hbounds.2⟩

theorem exists_classifyDomains {a b : Option (Fin r.size)} {d e : OrdinalDomain (Fin r.descriptors)}
    (ha : r.HasDomain target ev a (some d)) (hb : r.HasDomain target ev b (some e))
    (source dest : OrdinalDomain (Fin r.descriptors)) :
    ∃ n kind, (∀ m, n ≤ m → r.classifyDomains target ev m a b source dest = some kind) ∧
      (dest.Covers source → kind ≠ .incompatible) := by
  obtain ⟨n, same, hn⟩ := exists_sameTypeAst ha hb
  by_cases hcovers : dest.Covers source
  · have hfamily := familyCompatible_iff.mpr ⟨hcovers.family, hcovers.enumKey⟩
    have hbounds : ¬(source.low < dest.low ∨ source.high > dest.high) := by
      rw [not_or, not_lt, gt_iff_lt, not_lt]
      exact ⟨hcovers.low, hcovers.high⟩
    by_cases hequal : source.low = dest.low ∧ source.high = dest.high
    · refine ⟨n, if same then .exact else .compatible, ?_, ?_⟩
      · intro m hm
        have hsame : r.sameTypeAst target ev m a b = some same := sameTypeAstInContext_mono hm hn
        simp [classifyDomains, hfamily, hequal, hsame]
      · intro _
        cases same <;> simp
    · refine ⟨0, .compatible, ?_, by simp⟩
      intro m _
      simp [classifyDomains, hfamily, hbounds, hequal]
  · refine ⟨0, .incompatible, ?_, fun h => absurd h hcovers⟩
    intro m _
    by_cases hfamily : familyCompatible source dest = false
    · simp [classifyDomains, hfamily]
    · obtain ⟨hsame, hkey⟩ := familyCompatible_iff.mp (Bool.not_eq_false _ ▸ hfamily)
      have hbounds : source.low < dest.low ∨ source.high > dest.high := by
        by_contra hno
        rw [not_or, not_lt, gt_iff_lt, not_lt] at hno
        exact hcovers ⟨hsame, hkey, hno.1, hno.2⟩
      rw [classifyDomains, if_neg hfamily, if_pos hbounds]

theorem classifySetConversion_eq {n : Nat} {s t c c' : SetTypeExpr (Fin r.size)}
    {d e : OrdinalDomain (Fin r.descriptors)} (hs : r.canonicalSetType s = some c)
    (ht : r.canonicalSetType t = some c')
    (hd : r.ordinalDomainForSetType target ev n c = some (some d))
    (he : r.ordinalDomainForSetType target ev n c' = some (some e)) :
    r.classifySetConversion target ev n s t = r.classifyDomains target ev n
      ((r.setShape c).bind (·.1)) ((r.setShape c').bind (·.1)) d e := by
  simp [classifySetConversion, hs, ht, hd, he]

def Converts (r : TypeRegistry κ) (target : TargetInfo) (ev : BoundEvaluator κ (Fin r.descriptors))
    (s t : SetTypeExpr (Fin r.size)) : Prop :=
  ∃ n kind, r.classifySetConversion target ev n s t = some kind ∧ kind ≠ .incompatible

theorem exists_classify {s t : SetTypeExpr (Fin r.size)} {d e : OrdinalDomain (Fin r.descriptors)}
    (hd : r.HasSetDomain target ev s d) (he : r.HasSetDomain target ev t e) :
    ∃ n kind, (∀ m, n ≤ m → r.classifySetConversion target ev m s t = some kind) ∧
      (e.Covers d → kind ≠ .incompatible) := by
  obtain ⟨c, a, ad, hc, ha, had, n₁, hn₁⟩ := hd.canonical
  obtain ⟨c', b, bd, hc', hb, hbd, n₂, hn₂⟩ := he.canonical
  obtain ⟨n₃, kind, hn₃, hkind⟩ := exists_classifyDomains had hbd d e
  refine ⟨max n₃ (max n₁ n₂), kind, ?_, hkind⟩
  intro m hm
  rw [classifySetConversion_eq hc hc' (ordinalDomainForSetType_mono (by omega) hn₁)
    (ordinalDomainForSetType_mono (by omega) hn₂), ha, hb]
  exact hn₃ m (by omega)

theorem classifySetConversion_covers {n : Nat} {s t : SetTypeExpr (Fin r.size)}
    {kind : SetConversionKind} (h : r.classifySetConversion target ev n s t = some kind)
    (hkind : kind ≠ .incompatible) : ∃ d e, r.HasSetDomain target ev s d ∧
      r.HasSetDomain target ev t e ∧ e.Covers d := by
  unfold classifySetConversion at h
  split at h
  next c c' hc hc' =>
    simp only [Option.bind_eq_bind, Option.bind_eq_some_iff] at h
    obtain ⟨d, hd, e, he, h⟩ := h
    cases d with
    | none =>
      cases h
      contradiction
    | some d =>
      cases e with
      | none =>
        cases h
        contradiction
      | some e =>
        exact ⟨d, e, (hasSetDomain_canonical hc).mp ⟨n, hd⟩, (hasSetDomain_canonical hc').mp ⟨n, he⟩,
          classifyDomains_covers h hkind⟩
  next =>
    cases h
    contradiction

theorem converts_iff {s t : SetTypeExpr (Fin r.size)} : r.Converts target ev s t ↔
    ∃ d e, r.HasSetDomain target ev s d ∧ r.HasSetDomain target ev t e ∧ e.Covers d := by
  constructor
  case mp =>
    rintro ⟨n, kind, h, hkind⟩
    exact classifySetConversion_covers h hkind
  case mpr =>
    rintro ⟨d, e, hd, he, hcovers⟩
    obtain ⟨n, kind, h, hkind⟩ := exists_classify hd he
    exact ⟨n, kind, h n (le_refl n), hkind hcovers⟩

theorem Converts.trans {s t u : SetTypeExpr (Fin r.size)} (h : r.Converts target ev s t)
    (k : r.Converts target ev t u) : r.Converts target ev s u := by
  obtain ⟨d, e, hd, he, hcovers⟩ := converts_iff.mp h
  obtain ⟨e', f, he', hf, hcovers'⟩ := converts_iff.mp k
  rw [he'.unique he] at hcovers'
  exact converts_iff.mpr ⟨d, f, hd, hf, hcovers'.trans hcovers⟩

/-! The result of an operation. -/

section
variable {b : r.Builtins}

theorem Builtins.hasDomain (b : r.Builtins) {low high : Int} {p : IntegerPrimitive}
    (hp : ordinalIntegerPrimitiveForDomain low high = some p) :
    ∃ e, r.HasDomain target ev (some (b.type p)) (some e) ∧ e.family = .integer ∧
      e.low = (integerDomain target p).1 ∧ e.high = (integerDomain target p).2 := by
  have hordinal : p.kind.info.isOrdinalInteger = true := by
    unfold ordinalIntegerPrimitiveForDomain at hp
    split at hp
    · exact (ordinalIntegerPrimitive_spec hp target).2.2
    · exact (ordinalIntegerPrimitive_spec hp target).2.2
  have hboolean : p.kind ≠ .boolean := fun h => p.isInteger (by rw [h]; rfl)
  have hchar : p.kind ≠ .char := fun h => p.isInteger (by rw [h]; rfl)
  have hwide : p.kind ≠ .wideChar := fun h => by simp [h, PrimitiveKind.info,
    PrimitiveInfo.carried] at hordinal
  obtain ⟨e, he, hbounds⟩ : ∃ e : OrdinalDomain (Fin r.descriptors),
      primitiveDomain target p.kind = some e ∧ e.family = .integer ∧
        e.low = (integerDomain target p).1 ∧ e.high = (integerDomain target p).2 := by
    refine ⟨⟨.integer, (integerDomain target p).1, (integerDomain target p).2, none⟩, ?_, rfl, rfl,
      rfl⟩
    unfold primitiveDomain
    split
    · contradiction
    · contradiction
    · contradiction
    · exact dif_pos p.isInteger
  have hdescriptor : r.descriptor (b.type p) = some (b.descriptor p) :=
    r.payload_bound _ _ (b.payload_eq p)
  have hshape : r.payloadShape (some (b.type p)) = some (b.type p) := by
    simp [payloadShape, hdescriptor, b.payload_eq]
  refine ⟨e, ⟨2, ?_⟩, hbounds⟩
  have hinfo : r.primitiveInfoForType 1 (some (b.type p)) = some (some p.kind) := by
    simp [primitiveInfoForType, descriptorForType, hdescriptor, b.primitive_eq]
  simp [ordinalDomainForType, semanticShapeType, hshape, b.name_eq, hinfo, he]

theorem HasDomain.isSome {a : Option (Fin r.size)} {d : OrdinalDomain (Fin r.descriptors)}
    (h : r.HasDomain target ev a (some d)) :
    ∃ t, a = some t ∧ (r.descriptor t).isSome = true := by
  obtain ⟨s, hs, -⟩ := h.shape
  cases a with
  | none => cases hs
  | some t =>
    refine ⟨t, rfl, ?_⟩
    cases hd : r.descriptor t with
    | none => simp [payloadShape, hd] at hs
    | some d => rfl

theorem HasDomain.of_ordinalDomain {n : Nat} {a : Option (Fin r.size)}
    {d : Option (OrdinalDomain (Fin r.descriptors))}
    (h : r.ordinalDomain target ev n a = some d) : r.HasDomain target ev a d := by
  rw [ordinalDomain, ordinalDomainForType_context n a _ none] at h
  exact ⟨n, h⟩

/-- The element type of the result is of the family of the operands'; for integers, where the result
has bounds of `int64_t` in order, it holds them. -/
theorem resultElement_domain {n : Nat} {family : DomainFamily} {low high : Int}
    {lhs rhs element : Option (Fin r.size)} {d e : OrdinalDomain (Fin r.descriptors)}
    (hl : r.HasDomain target ev lhs (some d)) (hr : r.HasDomain target ev rhs (some e))
    (hd : d.family = family) (he : e.family = family)
    (h : r.resultElement target ev b n family low high lhs rhs = some element) :
    ∃ f, r.HasDomain target ev element (some f) ∧ f.family = family ∧
      (family = .enum → f.enumKey = d.enumKey) ∧
      (family = .integer → low ≤ high → cxxInt64.Holds low → cxxInt64.Holds high →
        f.low ≤ low ∧ high ≤ f.high) := by
  unfold resultElement at h
  split at h
  next hint =>
    have hno : family ≠ .enum := by rw [hint]; simp
    simp only [Option.bind_eq_bind, Option.bind_eq_some_iff] at h
    obtain ⟨ld, hld, rd, hrd, h⟩ := h
    have hld := (HasDomain.of_ordinalDomain hld).unique hl
    have hrd := (HasDomain.of_ordinalDomain hrd).unique hr
    subst hld hrd
    have h := Option.some.inj h
    split at h
    next hholds =>
      exact ⟨d, h ▸ hl, hd, fun _ => rfl, fun _ _ _ _ => by simpa using hholds⟩
    next =>
      split at h
      next hholds =>
        exact ⟨e, h ▸ hr, he, fun h => absurd h hno, fun _ _ _ _ => by simpa using hholds⟩
      next =>
        obtain ⟨p, hp⟩ := ordinalIntegerPrimitiveForDomain_isSome low high
        rw [hp] at h
        obtain ⟨f, hf, hfamily, hflow, hfhigh⟩ :=
          @Builtins.hasDomain _ r target ev b low high p hp
        refine ⟨f, h ▸ hf, hfamily.trans hint.symm, fun h => absurd h hno, ?_⟩
        intro _ ho hlow hhigh
        obtain ⟨hl, hh⟩ := @ordinalIntegerPrimitiveForDomain_holds target _ _ _ hp ho hlow hhigh
        rw [hflow, hfhigh]
        exact ⟨(mem_integerDomain hl hlow).1, (mem_integerDomain hh hhigh).2⟩
  next hint =>
    cases h
    exact ⟨d, hl, hd, fun _ => rfl, fun h => absurd h hint⟩

theorem exists_resultElement {family : DomainFamily} {low high : Int}
    {lhs rhs : Option (Fin r.size)} {d e : OrdinalDomain (Fin r.descriptors)}
    (hl : r.HasDomain target ev lhs (some d)) (hr : r.HasDomain target ev rhs (some e)) :
    ∃ n, ∀ m, n ≤ m → ∃ element,
      r.resultElement target ev b m family low high lhs rhs = some element := by
  obtain ⟨n, hn⟩ := hl
  obtain ⟨k, hk⟩ := hr
  refine ⟨max n k, ?_⟩
  intro m hm
  have hlhs : r.ordinalDomain target ev m lhs = some (some d) := by
    rw [ordinalDomain, ordinalDomainForType_context m lhs _ none]
    exact ordinalDomainForType_mono (by omega) hn
  have hrhs : r.ordinalDomain target ev m rhs = some (some e) := by
    rw [ordinalDomain, ordinalDomainForType_context m rhs _ none]
    exact ordinalDomainForType_mono (by omega) hk
  unfold resultElement
  split
  · simp [hlhs, hrhs]
  · exact ⟨lhs, rfl⟩

structure Operands (r : TypeRegistry κ) (target : TargetInfo)
    (ev : BoundEvaluator κ (Fin r.descriptors)) (lhsSource rhsSource lhsSet rhsSet :
      SetTypeExpr (Fin r.size)) (d e : OrdinalDomain (Fin r.descriptors)) : Prop where
  lhs : r.canonicalSetType lhsSource = some lhsSet
  rhs : r.canonicalSetType rhsSource = some rhsSet
  lhsDomain : r.HasSetDomain target ev lhsSource d
  rhsDomain : r.HasSetDomain target ev rhsSource e
  family : d.family = e.family
  enumKey : d.enumKey = e.enumKey

variable {lhsSource rhsSource lhsSet rhsSet : SetTypeExpr (Fin r.size)}
  {d e : OrdinalDomain (Fin r.descriptors)}

/-- The type is of the family of both domains, and where they are of integers it has the ordinals of
both. -/
def ElementFor (r : TypeRegistry κ) (target : TargetInfo) (ev : BoundEvaluator κ (Fin r.descriptors))
    (d e : OrdinalDomain (Fin r.descriptors)) (element : Fin r.size) : Prop :=
  ∃ f, r.HasDomain target ev (some element) (some f) ∧ f.family = d.family ∧
    (d.family = .integer → d.Int64 → e.Int64 → f.Covers d ∧ f.Covers e)

theorem synthesized_covers {t : Fin r.size} {f : OrdinalDomain (Fin r.descriptors)}
    (hf : r.HasDomain target ev (some t) (some f)) (hd : d.family = f.family)
    (he : e.family = f.family) (hkd : f.family = .enum → d.enumKey = f.enumKey)
    (hke : f.family = .enum → e.enumKey = f.enumKey) :
    r.synthesizeSetType (some t) (min d.low e.low, max d.high e.high) =
        some (.inferred t (min d.low e.low) (max d.high e.high)) ∧
      ∃ g, r.HasSetDomain target ev (.inferred t (min d.low e.low) (max d.high e.high)) g ∧
        g.Covers d ∧ g.Covers e := by
  obtain ⟨t', ht, hdescriptor⟩ := hf.isSome
  cases ht
  obtain ⟨descriptor, hdescriptor⟩ := Option.isSome_iff_exists.mp hdescriptor
  refine ⟨by simp [synthesizeSetType, hdescriptor],
    f.withBounds (some (min d.low e.low, max d.high e.high)), ?_, ?_, ?_⟩
  · exact hasSetDomain_iff.mpr ⟨some t, _, f, rfl, hf, rfl⟩
  · exact ⟨by simp [hd], by simpa using hkd, min_le_left .., le_max_left ..⟩
  · exact ⟨by simp [he], by simpa using hke, min_le_right .., le_max_right ..⟩

theorem Operands.synthesized (h : r.Operands target ev lhsSource rhsSource lhsSet rhsSet d e)
    {n : Nat} {element : Option (Fin r.size)}
    (helement : r.resultElement target ev b n d.family (min d.low e.low) (max d.high e.high)
      ((r.setShape lhsSet).bind (·.1)) ((r.setShape rhsSet).bind (·.1)) = some element) :
    ∃ t, r.ElementFor target ev d e t ∧
      r.synthesizeSetType element (min d.low e.low, max d.high e.high) =
        some (.inferred t (min d.low e.low) (max d.high e.high)) ∧
      ∃ g, r.HasSetDomain target ev (.inferred t (min d.low e.low) (max d.high e.high)) g ∧
        g.Covers d ∧ g.Covers e := by
  obtain ⟨lhs, lbounds, ld, hlshape, hld, rfl⟩ :=
    hasSetDomain_iff.mp ((hasSetDomain_canonical h.lhs).mpr h.lhsDomain)
  obtain ⟨rhs, rbounds, rd, hrshape, hrd, rfl⟩ :=
    hasSetDomain_iff.mp ((hasSetDomain_canonical h.rhs).mpr h.rhsDomain)
  have hfamily := h.family
  have hkey := h.enumKey
  simp only [withBounds_family, withBounds_enumKey] at hfamily hkey
  rw [hlshape, hrshape, withBounds_family] at helement
  obtain ⟨f, hf, hff, hfk, hholds⟩ := resultElement_domain hld hrd rfl hfamily.symm helement
  obtain ⟨t, rfl, -⟩ := hf.isSome
  refine ⟨t, ⟨f, hf, by simp [hff], fun hint hd he => ?_⟩, ?_⟩
  · rw [withBounds_family] at hint
    have hno : ld.family ≠ .enum := by rw [hint]; simp
    obtain ⟨hlow, hhigh⟩ := hholds hint
      ((min_le_left _ _).trans (hd.ordered.trans (le_max_left _ _)))
      (min_rec' cxxInt64.Holds hd.low he.low) (max_rec' cxxInt64.Holds hd.high he.high)
    exact ⟨⟨by simp [hff], fun h => absurd (hff ▸ h) hno, hlow.trans (min_le_left _ _),
        (le_max_left _ _).trans hhigh⟩,
      ⟨by simp [hff, hfamily], fun h => absurd (hff ▸ h) hno, hlow.trans (min_le_right _ _),
        (le_max_right _ _).trans hhigh⟩⟩
  · apply synthesized_covers hf
    · simp [hff]
    · simp [hff, hfamily]
    · intro henum
      simp [hfk (hff ▸ henum)]
    · intro henum
      simp [hfk (hff ▸ henum), hkey]

theorem Operands.covers (h : r.Operands target ev lhsSource rhsSource lhsSet rhsSet d e) {n : Nat}
    {result : SetTypeExpr (Fin r.size)}
    (hresult : r.setResultType target ev b n lhsSource rhsSource lhsSet rhsSet d e =
      some (some result)) :
    (∃ g, r.HasSetDomain target ev result g ∧ g.Covers d ∧ g.Covers e) ∧
      (result = lhsSource ∨ result = rhsSource ∨ ∃ element,
        result = .inferred element (min d.low e.low) (max d.high e.high) ∧
          r.ElementFor target ev d e element) := by
  have hlhs := (hasSetDomain_canonical h.lhs).mpr h.lhsDomain
  have hrhs := (hasSetDomain_canonical h.rhs).mpr h.rhsDomain
  simp only [setResultType, Option.bind_eq_bind, Option.bind_eq_some_iff] at hresult
  obtain ⟨kind, hkind, hresult⟩ := hresult
  split at hresult
  next hne =>
    cases hresult
    obtain ⟨e', d', he', hd', hcovers⟩ := classifySetConversion_covers hkind hne
    rw [hd'.unique hlhs, he'.unique hrhs] at hcovers
    exact ⟨⟨d, h.lhsDomain, .refl d, hcovers⟩, .inl rfl⟩
  next =>
    simp only [Option.bind_eq_some_iff] at hresult
    obtain ⟨kind', hkind', hresult⟩ := hresult
    split at hresult
    next hne =>
      cases hresult
      obtain ⟨d', e', hd', he', hcovers⟩ := classifySetConversion_covers hkind' hne
      rw [hd'.unique hlhs, he'.unique hrhs] at hcovers
      exact ⟨⟨e, h.rhsDomain, hcovers, .refl e⟩, .inr (.inl rfl)⟩
    next =>
      simp only [Option.bind_eq_some_iff] at hresult
      obtain ⟨element, helement, hresult⟩ := hresult
      obtain ⟨t, ht, hmade, hg⟩ := h.synthesized helement
      rw [hmade] at hresult
      cases hresult
      exact ⟨hg, .inr (.inr ⟨t, rfl, ht⟩)⟩

theorem setDescriptorExists_of_canonical {t c : SetTypeExpr (Fin r.size)}
    (h : r.canonicalSetType t = some c) : r.setDescriptorExists t = true := by
  cases t with
  | inferred element low high => rfl
  | bound type =>
    rw [setDescriptorExists, ← payloadShape_isSome]
    unfold canonicalSetType at h
    split at h
    · obtain ⟨s, hs, -⟩ := Option.map_eq_some_iff.mp h
      rw [hs]
      rfl
    · cases h

theorem Operands.exists_result (h : r.Operands target ev lhsSource rhsSource lhsSet rhsSet d e) :
    ∃ n, ∀ m, n ≤ m → ∃ result,
      r.setResultType target ev b m lhsSource rhsSource lhsSet rhsSet d e = some (some result) ∧
        r.setDescriptorExists result = true := by
  have hlhs := (hasSetDomain_canonical h.lhs).mpr h.lhsDomain
  have hrhs := (hasSetDomain_canonical h.rhs).mpr h.rhsDomain
  obtain ⟨n₁, kind, hkind, -⟩ := exists_classify hrhs hlhs
  obtain ⟨n₂, kind', hkind', -⟩ := exists_classify hlhs hrhs
  obtain ⟨c, lhs, ld, hc, hlshape, hld, -⟩ := hlhs.canonical
  obtain ⟨c', rhs, rd, hc', hrshape, hrd, -⟩ := hrhs.canonical
  cases (canonicalSetType_spec h.lhs).2.symm.trans hc
  cases (canonicalSetType_spec h.rhs).2.symm.trans hc'
  obtain ⟨n₃, helement⟩ := @exists_resultElement _ r target ev b d.family (min d.low e.low)
    (max d.high e.high) lhs rhs ld rd hld hrd
  refine ⟨max n₁ (max n₂ n₃), ?_⟩
  intro m hm
  have hkind := hkind m (by omega)
  have hkind' := hkind' m (by omega)
  obtain ⟨element, helement⟩ := helement m (by omega)
  by_cases hne : kind = .incompatible
  · by_cases hne' : kind' = .incompatible
    · rw [← hlshape, ← hrshape] at helement
      obtain ⟨t, -, hmade, -⟩ := h.synthesized helement
      exact ⟨.inferred t (min d.low e.low) (max d.high e.high),
        by simp [setResultType, hkind, hkind', hne, hne', helement, hmade], rfl⟩
    · exact ⟨rhsSource, by simp [setResultType, hkind, hkind', hne, hne'],
        setDescriptorExists_of_canonical h.rhs⟩
  · exact ⟨lhsSource, by simp [setResultType, hkind, hne],
      setDescriptorExists_of_canonical h.lhs⟩

theorem bindSetBinaryOperation_operands {n : Nat} {op : BinOp}
    {lhs rhs : SetOperand (Fin r.size) (Fin r.descriptors)} {bound : BoundSetOperation (Fin r.size)}
    (h : r.bindSetBinaryOperation target ev b n op lhs rhs = some (some bound)) :
    ∃ lhsSet rhsSet d e, r.Operands target ev bound.lhsSource bound.rhsSource lhsSet rhsSet d e ∧
      r.setResultType target ev b n bound.lhsSource bound.rhsSource lhsSet rhsSet d e =
        some (some bound.result) := by
  unfold bindSetBinaryOperation at h
  split at h
  · cases h
  · simp only [Option.bind_eq_bind, Option.bind_eq_some_iff] at h
    obtain ⟨ls, -, rs, -, h⟩ := h
    split at h
    next lhsSource rhsSource =>
      split at h
      next lhsSet rhsSet hl hr =>
        simp only [Option.bind_eq_some_iff] at h
        obtain ⟨ld, hld, rd, hrd, h⟩ := h
        split at h
        next d e =>
          split at h
          next => cases h
          next hsame =>
            rw [not_or, not_not, not_not] at hsame
            simp only [Option.bind_eq_some_iff] at h
            obtain ⟨result, hresult, h⟩ := h
            obtain ⟨result', hresult', h⟩ := Option.bind_eq_some_iff.mp (Option.some.inj h)
            split at h
            next =>
              cases h
              cases hresult'
              exact ⟨lhsSet, rhsSet, d, e, ⟨hl, hr, (hasSetDomain_canonical hl).mp ⟨n, hld⟩,
                (hasSetDomain_canonical hr).mp ⟨n, hrd⟩, hsame.1, hsame.2⟩, hresult⟩
            next => cases h
        next => cases h
      next => cases h
    next => cases h

theorem exists_bindSetBinaryOperation {s t : SetTypeExpr (Fin r.size)}
    (hd : r.HasSetDomain target ev s d) (he : r.HasSetDomain target ev t e)
    (hfamily : d.family = e.family) (hkey : d.enumKey = e.enumKey) {op : BinOp}
    {kind : SetOperationKind} (hop : SetOperationKind.ofOp op = some kind) :
    ∃ n bound, r.bindSetBinaryOperation target ev b n op ⟨some s, none⟩ ⟨some t, none⟩ =
      some (some bound) ∧ bound.lhsSource = s ∧ bound.rhsSource = t ∧ bound.kind = kind := by
  obtain ⟨c, -, -, hc, -, -, n₁, hn₁⟩ := hd.canonical
  obtain ⟨c', -, -, hc', -, -, n₂, hn₂⟩ := he.canonical
  have hoperands : r.Operands target ev s t c c' d e := ⟨hc, hc', hd, he, hfamily, hkey⟩
  obtain ⟨n₃, hresult⟩ := @Operands.exists_result _ r target ev b _ _ _ _ _ _ hoperands
  obtain ⟨result, hresult, hexists⟩ := hresult (max n₃ (max n₁ n₂)) (by omega)
  have hdomain := ordinalDomainForSetType_mono (show n₁ ≤ max n₃ (max n₁ n₂) by omega) hn₁
  have hdomain' := ordinalDomainForSetType_mono (show n₂ ≤ max n₃ (max n₁ n₂) by omega) hn₂
  refine ⟨max n₃ (max n₁ n₂), ⟨kind, s, t, result⟩, ?_, rfl, rfl, rfl⟩
  simp [bindSetBinaryOperation, hop, operandType, hc, hc', hdomain, hdomain', hfamily, hkey, hresult,
    hexists, setDescriptorExists_of_canonical hc, setDescriptorExists_of_canonical hc']

/-- The domain of a bound operation's result has the ordinals of both operands, and so has the element
type of a set of integers that is made for it; operands with domains of one family are bound; and the
accepted conversions are a preorder that keeps all ordinals. -/
structure SetTypesCover (r : TypeRegistry κ) (target : TargetInfo)
    (ev : BoundEvaluator κ (Fin r.descriptors)) (b : r.Builtins) : Prop where
  covers : ∀ n op lhs rhs bound,
    r.bindSetBinaryOperation target ev b n op lhs rhs = some (some bound) → ∃ d e g,
      r.HasSetDomain target ev bound.lhsSource d ∧ r.HasSetDomain target ev bound.rhsSource e ∧
        r.HasSetDomain target ev bound.result g ∧ g.Covers d ∧ g.Covers e ∧
        (bound.result = bound.lhsSource ∨ bound.result = bound.rhsSource ∨ ∃ element,
          bound.result = .inferred element (min d.low e.low) (max d.high e.high) ∧
            r.ElementFor target ev d e element)
  binds : ∀ s t d e, r.HasSetDomain target ev s d → r.HasSetDomain target ev t e →
    d.family = e.family → d.enumKey = e.enumKey → ∀ op kind, SetOperationKind.ofOp op = some kind →
      ∃ n bound, r.bindSetBinaryOperation target ev b n op ⟨some s, none⟩ ⟨some t, none⟩ =
        some (some bound) ∧ bound.lhsSource = s ∧ bound.rhsSource = t ∧ bound.kind = kind
  classifies : ∀ s t d e, r.HasSetDomain target ev s d → r.HasSetDomain target ev t e →
    ∃ n kind, ∀ m, n ≤ m → r.classifySetConversion target ev m s t = some kind
  reflexive : ∀ s d, r.HasSetDomain target ev s d → r.Converts target ev s s
  transitive : ∀ s t u, r.Converts target ev s t → r.Converts target ev t u →
    r.Converts target ev s u
  contained : ∀ s t, r.Converts target ev s t → ∃ d e, r.HasSetDomain target ev s d ∧
    r.HasSetDomain target ev t e ∧ e.Covers d

theorem setTypesCover (r : TypeRegistry κ) (target : TargetInfo)
    (ev : BoundEvaluator κ (Fin r.descriptors)) (b : r.Builtins) : r.SetTypesCover target ev b where
  covers n op lhs rhs bound h := by
    obtain ⟨lhsSet, rhsSet, d, e, hoperands, hresult⟩ := bindSetBinaryOperation_operands h
    obtain ⟨⟨g, hg, hgd, hge⟩, hmade⟩ := hoperands.covers hresult
    exact ⟨d, e, g, hoperands.lhsDomain, hoperands.rhsDomain, hg, hgd, hge, hmade⟩
  binds _ _ _ _ hd he hfamily hkey _ _ hop :=
    exists_bindSetBinaryOperation hd he hfamily hkey hop
  classifies s t d e hd he := by
    obtain ⟨n, kind, hkind, -⟩ := exists_classify hd he
    exact ⟨n, kind, hkind⟩
  reflexive _ d hd := converts_iff.mpr ⟨d, d, hd, hd, .refl d⟩
  transitive _ _ _ h k := h.trans k
  contained _ _ h := converts_iff.mp h

end

end TypeRegistry

def primitiveTypes : TypeRegistry Unit where
  size := 31
  descriptors := 31
  node _ := .tyName
  descriptor := some
  typeContext _ := none
  payload := some
  primitive d := some (.ofNat d)
  enumMembers _ := none
  payload_bound _ _ h := h.symm
  metaclass_name _ _ _ h := by cases h
  metaclass_primitive _ h := by cases h
  bounds_scoped _ _ h := by cases h

theorem primitiveKind_index_lt (k : PrimitiveKind) : k.ctorIdx < 31 := by
  cases k <;> decide

def primitiveBuiltins : primitiveTypes.Builtins where
  descriptor p := ⟨p.kind.ctorIdx, primitiveKind_index_lt p.kind⟩
  type p := ⟨p.kind.ctorIdx, primitiveKind_index_lt p.kind⟩
  setLiteralElementResult := some
  payload_eq _ := rfl
  primitive_eq p := congrArg some (PrimitiveKind.ofNat_ctorIdx p.kind)
  name_eq _ := rfl

def primitiveByte : Fin primitiveTypes.size := primitiveBuiltins.type ⟨.byte, PrimitiveKind.byte_integer⟩

-- Neither of two overlapping sets of bytes converts to the other, so their union has a type of its own.
example : (primitiveTypes.bindSetBinaryOperation ⟨64, TargetInfo.sixtyFour⟩ ⟨fun _ _ => none, fun _ _ => none⟩
    primitiveBuiltins 3 .add ⟨some (.inferred primitiveByte 0 10), none⟩
    ⟨some (.inferred primitiveByte 5 20), none⟩).map (·.map (·.result)) =
      some (some (.inferred primitiveByte 0 20)) := by decide

end Tp2cc
