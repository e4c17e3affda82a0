import Tp2cc.Analysis.SameType

set_option autoImplicit false

namespace Tp2cc
open Graph

/-- What a type is compared by, when it is not by its descriptor. -/
inductive TypeForm (ν δ : Type) where
  | pointer (target : Option ν)
  | ordinal (domain : OrdinalDomain δ)
  | array (isPacked : Bool) (dims : List (OrdinalDomain δ)) (element : Option ν)
  | set (domain : OrdinalDomain δ)
  | file (isText : Bool) (element : Option ν)
  | string (capacity : Int)

section
variable {ν δ : Type} {T T' : Option ν → Option ν → Prop}

inductive ChildrenAgree (T : Option ν → Option ν → Prop) : Option ν → Option ν → Prop where
  | missing : ChildrenAgree T none none
  | present {a b : ν} : T (some a) (some b) → ChildrenAgree T (some a) (some b)

inductive FormsAgree (T : Option ν → Option ν → Prop) : TypeForm ν δ → TypeForm ν δ → Prop where
  | pointer {a b : Option ν} : ChildrenAgree T a b → FormsAgree T (.pointer a) (.pointer b)
  | ordinal {d : OrdinalDomain δ} : FormsAgree T (.ordinal d) (.ordinal d)
  | array {isPacked : Bool} {dims : List (OrdinalDomain δ)} {a b : Option ν} : T a b →
      FormsAgree T (.array isPacked dims a) (.array isPacked dims b)
  | set {d : OrdinalDomain δ} : FormsAgree T (.set d) (.set d)
  | file {isText : Bool} {a b : Option ν} : ChildrenAgree T a b →
      FormsAgree T (.file isText a) (.file isText b)
  | string {capacity : Int} : FormsAgree T (.string capacity) (.string capacity)

theorem ChildrenAgree.mono {a b : Option ν} (hT : ∀ x y, T x y → T' x y)
    (h : ChildrenAgree T a b) : ChildrenAgree T' a b := by
  cases h with
  | missing => exact .missing
  | present h => exact .present (hT _ _ h)

theorem ChildrenAgree.symm {a b : Option ν} (hT : ∀ x y, T x y → T' y x)
    (h : ChildrenAgree T a b) : ChildrenAgree T' b a := by
  cases h with
  | missing => exact .missing
  | present h => exact .present (hT _ _ h)

theorem ChildrenAgree.trans {a b c : Option ν} (hT : ∀ x y z, T x y → T y z → T x z)
    (h : ChildrenAgree T a b) (h' : ChildrenAgree T b c) : ChildrenAgree T a c := by
  cases h with
  | missing => exact h'
  | present h =>
    cases h' with
    | present h' => exact .present (hT _ _ _ h h')

theorem FormsAgree.mono {f g : TypeForm ν δ} (hT : ∀ x y, T x y → T' x y)
    (h : FormsAgree T f g) : FormsAgree T' f g := by
  cases h with
  | pointer h => exact .pointer (h.mono hT)
  | ordinal => exact .ordinal
  | array h => exact .array (hT _ _ h)
  | set => exact .set
  | file h => exact .file (h.mono hT)
  | string => exact .string

theorem FormsAgree.symm {f g : TypeForm ν δ} (hT : ∀ x y, T x y → T' y x)
    (h : FormsAgree T f g) : FormsAgree T' g f := by
  cases h with
  | pointer h => exact .pointer (h.symm hT)
  | ordinal => exact .ordinal
  | array h => exact .array (hT _ _ h)
  | set => exact .set
  | file h => exact .file (h.symm hT)
  | string => exact .string

theorem FormsAgree.trans {f g k : TypeForm ν δ} (hT : ∀ x y z, T x y → T y z → T x z)
    (h : FormsAgree T f g) (h' : FormsAgree T g k) : FormsAgree T f k := by
  cases h with
  | pointer h =>
    cases h' with
    | pointer h' => exact .pointer (h.trans hT h')
  | ordinal => exact h'
  | array h =>
    cases h' with
    | array h' => exact .array (hT _ _ _ h h')
  | set => exact h'
  | file h =>
    cases h' with
    | file h' => exact .file (h.trans hT h')
  | string => exact h'

end

namespace TypeRegistry
variable {κ : Type} {r : TypeRegistry κ} {target : TargetInfo}
  {ev : BoundEvaluator κ (Fin r.descriptors)}

/-- The form of a shape. -/
inductive HasForm (r : TypeRegistry κ) (target : TargetInfo)
    (ev : BoundEvaluator κ (Fin r.descriptors)) (a : Fin r.size) :
    TypeForm (Fin r.size) (Fin r.descriptors) → Prop where
  | pointer {p : PointerShape (Fin r.size)} {c : Option κ} :
      r.pointerShape a none = some (p,c) → HasForm r target ev a (.pointer p.target)
  | ordinal {d : OrdinalDomain (Fin r.descriptors)} :
      r.HasDomain target ev (some a) (some d) → HasForm r target ev a (.ordinal d)
  | array {dims : List (Option (Fin r.size))} {element : Option (Fin r.size)} {isPacked : Bool}
      {domains : List (OrdinalDomain (Fin r.descriptors))} :
      r.node a = .tyArray dims element isPacked .fixed →
      List.Forall₂ (fun t d => r.HasDomain target ev t (some d)) dims domains →
      HasForm r target ev a (.array isPacked domains element)
  | set {element : Option (Fin r.size)} {bounds : Option (Int × Int)}
      {d : OrdinalDomain (Fin r.descriptors)} : r.node a = .tySet element bounds →
      r.HasDomain target ev element (some d) → HasForm r target ev a (.set (d.withBounds bounds))
  | file {element : Option (Fin r.size)} {isText : Bool} : r.node a = .tyFile element isText →
      HasForm r target ev a (.file isText element)
  | string {maxLength : Option Expr} {capacity : Int} : r.node a = .tyString maxLength →
      r.shortstringCapacity ev maxLength (r.typeContext a) = some (some capacity) →
      HasForm r target ev a (.string capacity)

/-- Types that are compared by structure have no domain. -/
theorem hasDomain_none {a : Option (Fin r.size)} {s : Fin r.size} (hs : r.payloadShape a = some s)
    (hdistinct : ∀ u, r.node s ≠ .tyDistinct u) (hsubrange : ∀ lo hi, r.node s ≠ .tySubrange lo hi)
    (henum : ∀ k, r.node s ≠ .tyEnum k) (hname : r.node s ≠ .tyName) :
    r.HasDomain target ev a none := by
  refine ⟨1, ?_⟩
  rw [ordinalDomainForType, semanticShapeType, hs]
  cases hn : r.node s with
  | tyDistinct u => exact absurd hn (hdistinct u)
  | tySubrange lo hi => exact absurd hn (hsubrange lo hi)
  | tyEnum k => exact absurd hn (henum k)
  | tyName => exact absurd hn hname
  | _ => simp [hn]

theorem hasDomain_subrange {s : Fin r.size} (hs : r.payloadShape (some s) = some s) {lo hi : Expr}
    (hn : r.node s = .tySubrange lo hi)
    {low high : Option (OrdinalExprValue (Fin r.descriptors))}
    (hlo : ev.evalOrdinalExpr lo (r.typeContext s) = some low)
    (hhi : ev.evalOrdinalExpr hi (r.typeContext s) = some high)
    {d : Option (OrdinalDomain (Fin r.descriptors))} (hd : subrangeDomain low high = d) :
    r.HasDomain target ev (some s) d := by
  refine ⟨1, ?_⟩
  rw [ordinalDomainForType, semanticShapeType, hs]
  have hb : (r.node s).hasBounds = true := by rw [hn]; rfl
  simp [hn, childContext_of_bounds (descriptor_of_shape hs) hb, hlo, hhi, hd]

theorem pointerShape_cases {s : Fin r.size} {p : PointerShape (Fin r.size)} {c : Option κ}
    (h : r.pointerShape s none = some (p,c)) : r.node s = .tyPointer p.target ∨
      ∃ u w, r.node s = .tyDistinct u ∧ r.payloadShape u = some w ∧
        r.node w = .tyPointer p.target := by
  unfold pointerShape at h
  split at h
  next target hn =>
    cases h
    exact .inl hn
  next u hn =>
    split at h
    next target hu =>
      cases h
      obtain ⟨w, hw, hnw⟩ := Option.map_eq_some_iff.mp hu
      exact .inr ⟨u, w, hn, hw, hnw⟩
    · cases h
  · cases h

theorem hasDomain_none_of_pointer {s : Fin r.size} (hs : r.payloadShape (some s) = some s)
    {p : PointerShape (Fin r.size)} {c : Option κ} (h : r.pointerShape s none = some (p,c)) :
    r.HasDomain target ev (some s) none := by
  rcases pointerShape_cases h with hn | ⟨u, w, hn, hu, hw⟩
  · exact hasDomain_none hs (by simp [hn]) (by simp [hn]) (by simp [hn]) (by simp [hn])
  · obtain ⟨n, hd⟩ : r.HasDomain target ev u none :=
      hasDomain_none hu (by simp [hw]) (by simp [hw]) (by simp [hw]) (by simp [hw])
    refine ⟨n+1, ?_⟩
    rw [ordinalDomainForType, semanticShapeType, hs]
    simp only [Option.map_some, hn]
    rw [ordinalDomainForType_context n u _ none]
    exact hd

def formDomain : TypeForm (Fin r.size) (Fin r.descriptors) →
    Option (OrdinalDomain (Fin r.descriptors))
  | .ordinal d => some d
  | _ => none

theorem HasForm.domain {a : Fin r.size} (hs : r.payloadShape (some a) = some a)
    {f : TypeForm (Fin r.size) (Fin r.descriptors)} (h : r.HasForm target ev a f) :
    r.HasDomain target ev (some a) (formDomain f) := by
  cases h with
  | pointer h => exact hasDomain_none_of_pointer hs h
  | ordinal h => exact h
  | array hn _ => exact hasDomain_none hs (by simp [hn]) (by simp [hn]) (by simp [hn]) (by simp [hn])
  | set hn _ => exact hasDomain_none hs (by simp [hn]) (by simp [hn]) (by simp [hn]) (by simp [hn])
  | file hn => exact hasDomain_none hs (by simp [hn]) (by simp [hn]) (by simp [hn]) (by simp [hn])
  | string hn _ =>
    exact hasDomain_none hs (by simp [hn]) (by simp [hn]) (by simp [hn]) (by simp [hn])

theorem forall₂_domain_unique {dims : List (Option (Fin r.size))}
    {ds ds' : List (OrdinalDomain (Fin r.descriptors))}
    (h : List.Forall₂ (fun t d => r.HasDomain target ev t (some d)) dims ds)
    (h' : List.Forall₂ (fun t d => r.HasDomain target ev t (some d)) dims ds') : ds = ds' := by
  induction h generalizing ds' with
  | nil =>
    cases h'
    rfl
  | cons hd _ ih =>
    cases h' with
    | cons hd' h' =>
      cases hd.unique hd'
      rw [ih h']

theorem HasForm.unique {a : Fin r.size} (hs : r.payloadShape (some a) = some a)
    {f g : TypeForm (Fin r.size) (Fin r.descriptors)} (h : r.HasForm target ev a f)
    (h' : r.HasForm target ev a g) : f = g := by
  have hd := (h.domain hs).unique (h'.domain hs)
  cases h with
  | pointer hp =>
    have hnode := pointerShape_cases hp
    cases h' with
    | pointer hp' =>
      rw [hp] at hp'
      cases hp'
      rfl
    | ordinal _ => cases hd
    | array hn _ => simp [hn] at hnode
    | set hn _ => simp [hn] at hnode
    | file hn => simp [hn] at hnode
    | string hn _ => simp [hn] at hnode
  | ordinal _ =>
    cases h' with
    | ordinal _ =>
      cases hd
      rfl
    | _ => cases hd
  | array hn hdims =>
    cases h' with
    | pointer hp => simpa [hn] using pointerShape_cases hp
    | ordinal _ => cases hd
    | array hn' hdims' =>
      rw [hn] at hn'
      cases hn'
      rw [forall₂_domain_unique hdims hdims']
    | _ hn' => simp [hn] at hn'
  | set hn hel =>
    cases h' with
    | pointer hp => simpa [hn] using pointerShape_cases hp
    | ordinal _ => cases hd
    | set hn' hel' =>
      rw [hn] at hn'
      cases hn'
      cases hel.unique hel'
      rfl
    | _ hn' => simp [hn] at hn'
  | file hn =>
    cases h' with
    | pointer hp => simpa [hn] using pointerShape_cases hp
    | ordinal _ => cases hd
    | file hn' =>
      rw [hn] at hn'
      cases hn'
      rfl
    | _ hn' => simp [hn] at hn'
  | string hn hc =>
    cases h' with
    | pointer hp => simpa [hn] using pointerShape_cases hp
    | ordinal _ => cases hd
    | string hn' hc' =>
      rw [hn] at hn'
      cases hn'
      rw [hc] at hc'
      cases hc'
      rfl
    | _ hn' => simp [hn] at hn'

theorem not_hasForm_bare {s : Fin r.size} (hs : r.payloadShape (some s) = some s)
    (hn : r.node s = .tyName ∨ r.node s = .tyMetaclass)
    (hp : ∀ d, r.descriptor s = some d → r.primitive d = none)
    {f : TypeForm (Fin r.size) (Fin r.descriptors)} : ¬ r.HasForm target ev s f := by
  have hdomain : r.HasDomain target ev (some s) none := by
    rcases hn with hn | hn
    · have hinfo : r.primitiveInfoForType 1 (some s) = some none := by
        rw [primitiveInfoForType, hs]
        have hnone : (r.descriptorForType (some s)).bind r.primitive = none := by
          simpa [descriptorForType, Option.bind_eq_none_iff] using hp
        rw [hnone]
        simp [hn]
      refine ⟨2, ?_⟩
      rw [ordinalDomainForType, semanticShapeType, hs]
      simp [hn, hinfo]
    · exact hasDomain_none hs (by simp [hn]) (by simp [hn]) (by simp [hn]) (by simp [hn])
  intro h
  cases h with
  | pointer h =>
    rcases pointerShape_cases h with h | ⟨u, w, h, -⟩ <;> rcases hn with hn | hn <;>
      simp [hn] at h
  | ordinal h => cases h.unique hdomain
  | array h _ => rcases hn with hn | hn <;> simp [hn] at h
  | set h _ => rcases hn with hn | hn <;> simp [hn] at h
  | file h => rcases hn with hn | hn <;> simp [hn] at h
  | string h _ => rcases hn with hn | hn <;> simp [hn] at h

/-! What the comparison asks. -/

section
variable {W A : Option (Fin r.size) × Option (Fin r.size) → Prop}

theorem childItems_hold_iff {a b : Option (Fin r.size)} :
    (∀ i ∈ childItems a b, i.Holds W A) ↔ ChildrenAgree (fun x y => A (x,y)) a b := by
  cases a with
  | none =>
    cases b with
    | none => simp [childItems, ChildrenAgree.missing]
    | some b =>
      have hno : ¬ ChildrenAgree (fun x y => A (x,y)) none (some b) := nofun
      simp [childItems, hno]
  | some a =>
    cases b with
    | none =>
      have hno : ¬ ChildrenAgree (fun x y => A (x,y)) (some a) none := nofun
      simp [childItems, hno]
    | some b =>
      simp only [childItems, Option.isNone_some, Bool.false_eq_true, or_self, if_false,
        List.mem_singleton, forall_eq, Item.afresh_holds]
      constructor
      · intro h
        exact .present h
      · intro h
        cases h with
        | present h => exact h

theorem sameDomain_iff {δ : Type} [DecidableEq δ] {l r : Option (OrdinalDomain δ)} :
    sameDomain l r = true ↔ ∃ d, l = some d ∧ r = some d := by
  cases l with
  | none => simp [sameDomain]
  | some d =>
    simp only [sameDomain, Option.isSome_some, Bool.true_and, beq_iff_eq, Option.some.injEq,
      exists_eq_left']
    exact eq_comm

theorem sameOrdinalDomain_iff {a b : Option (Fin r.size)} {n : Nat} {same : Bool}
    (h : r.sameOrdinalDomain target ev n a none b none = some same) :
    same = true ↔ ∃ d, r.HasDomain target ev a (some d) ∧ r.HasDomain target ev b (some d) := by
  simp only [sameOrdinalDomain, Option.bind_eq_bind, Option.bind_eq_some_iff] at h
  obtain ⟨ld, hl, rd, hr, hs⟩ := h
  cases hs
  have hld : r.HasDomain target ev a ld := ⟨n, hl⟩
  have hrd : r.HasDomain target ev b rd := ⟨n, hr⟩
  rw [sameDomain_iff]
  constructor
  · rintro ⟨d, h₁, h₂⟩
    exact ⟨d, h₁ ▸ hld, h₂ ▸ hrd⟩
  · rintro ⟨d, h₁, h₂⟩
    exact ⟨d, hld.unique h₁, hrd.unique h₂⟩

theorem exists_sameOrdinalDomain {a b : Option (Fin r.size)} :
    (∃ n, r.sameOrdinalDomain target ev n a none b none = some true) ↔
      ∃ d, r.HasDomain target ev a (some d) ∧ r.HasDomain target ev b (some d) := by
  constructor
  · rintro ⟨n, hn⟩
    exact (sameOrdinalDomain_iff hn).mp rfl
  · rintro ⟨d, ⟨n, hn⟩, ⟨m, hm⟩⟩
    refine ⟨max n m, ?_⟩
    rw [sameOrdinalDomain, ordinalDomainForType_mono (Nat.le_max_left n m) hn,
      ordinalDomainForType_mono (Nat.le_max_right n m) hm]
    simp [sameDomain]

theorem exists_sameSetDomain {a b : Option (Fin r.size)} {abounds bbounds : Option (Int × Int)} :
    (∃ n, r.sameSetDomain target ev n a none abounds b none bbounds = some true) ↔
      ∃ d d', r.HasDomain target ev a (some d) ∧ r.HasDomain target ev b (some d') ∧
        d.withBounds abounds = d'.withBounds bbounds := by
  constructor
  · rintro ⟨n, hn⟩
    simp only [sameSetDomain, Option.bind_eq_bind, Option.bind_eq_some_iff] at hn
    obtain ⟨ad, ha, bd, hb, hs⟩ := hn
    obtain ⟨d, h₁, h₂⟩ := sameDomain_iff.mp (Option.some.inj hs)
    obtain ⟨d₁, rfl, hd₁⟩ := Option.map_eq_some_iff.mp h₁
    obtain ⟨d₂, rfl, hd₂⟩ := Option.map_eq_some_iff.mp h₂
    exact ⟨d₁, d₂, ⟨n, ha⟩, ⟨n, hb⟩, hd₁.trans hd₂.symm⟩
  · rintro ⟨d, d', ⟨n, hn⟩, ⟨m, hm⟩, hd⟩
    refine ⟨max n m, ?_⟩
    rw [sameSetDomain, ordinalDomainForType_mono (Nat.le_max_left n m) hn,
      ordinalDomainForType_mono (Nat.le_max_right n m) hm]
    simp [sameDomain, hd]

theorem dims_iff {dims dims' : List (Option (Fin r.size))} (hl : dims.length = dims'.length) :
    (∀ d ∈ dims.zip dims', ∃ n, r.sameOrdinalDomain target ev n d.1 none d.2 none = some true) ↔
      ∃ ds, List.Forall₂ (fun t d => r.HasDomain target ev t (some d)) dims ds ∧
        List.Forall₂ (fun t d => r.HasDomain target ev t (some d)) dims' ds := by
  simp only [exists_sameOrdinalDomain]
  induction dims generalizing dims' with
  | nil =>
    cases dims' with
    | nil => simp
    | cons _ _ => cases hl
  | cons t dims ih =>
    cases dims' with
    | nil => cases hl
    | cons t' dims' =>
      simp only [List.zip_cons_cons, List.forall_mem_cons, ih (Nat.succ.inj hl)]
      constructor
      · rintro ⟨⟨d, h₁, h₂⟩, ds, hds, hds'⟩
        exact ⟨d :: ds, .cons h₁ hds, .cons h₂ hds'⟩
      · rintro ⟨ds, h, h'⟩
        cases h with
        | cons h₁ h =>
          cases h' with
          | cons h₂ h' => exact ⟨⟨_, h₁, h₂⟩, _, h, h'⟩

theorem sameSubrange_domain {δ : Type} [DecidableEq δ]
    {alo ahi blo bhi : Option (OrdinalExprValue δ)} (h : sameSubrange alo ahi blo bhi = true) :
    ∃ d, subrangeDomain alo ahi = some d ∧ subrangeDomain blo bhi = some d := by
  unfold sameSubrange at h
  split at h
  next alo ahi blo bhi =>
    obtain ⟨h₁, h₂, h₃, h₄, h₅, h₆, h₇, h₈⟩ := of_decide_eq_true h
    refine ⟨⟨alo.family, min alo.value ahi.value, max alo.value ahi.value, alo.enumKey⟩, ?_, ?_⟩
    · simp [subrangeDomain, h₁, h₄]
    · simp [subrangeDomain, h₂, h₃, h₅, h₆, h₇, h₈]
  · cases h

theorem kindItems_hold_iff {a b : Fin r.size} (ha : r.payloadShape (some a) = some a)
    (hb : r.payloadShape (some b) = some b) (hd : r.sameDescriptor (some a) (some b) = false)
    (hpointer : r.pointerShape a none = none ∨ r.pointerShape b none = none)
    (hdomain : ¬ ∃ d, r.HasDomain target ev (some a) (some d) ∧
      r.HasDomain target ev (some b) (some d)) :
    (∀ i ∈ r.kindItems target ev a b, i.Holds W A) ↔ ∃ f g, r.HasForm target ev a f ∧
      r.HasForm target ev b g ∧ FormsAgree (fun x y => A (x,y)) f g := by
  constructor
  · intro h
    unfold kindItems at h
    split at h
    · simp [hd] at h
    next hna hnb =>
      rcases hpointer with hp | hp
      · simp [pointerShape, hna] at hp
      · simp [pointerShape, hnb] at hp
    next dims element isPacked arrayKind dims' element' isPacked' arrayKind' hna hnb =>
      simp only [List.cons_append, List.forall_mem_cons, Item.test_holds, decide_eq_true_eq,
        List.forall_mem_append, List.forall_mem_map, List.not_mem_nil, false_imp_iff,
        Item.afresh_holds] at h
      obtain ⟨⟨rfl, rfl⟩, ⟨rfl, hl⟩, hdims, hel, -⟩ := h
      obtain ⟨ds, hds, hds'⟩ := (dims_iff hl).mp hdims
      exact ⟨_, _, .array hna hds, .array hnb hds', .array hel⟩
    next element bounds element' bounds' hna hnb =>
      obtain ⟨d, d', h₁, h₂, he⟩ := exists_sameSetDomain.mp (h _ List.mem_cons_self)
      refine ⟨_, _, .set hna h₁, .set hnb h₂, ?_⟩
      rw [he]
      exact .set
    next element isText element' isText' hna hnb =>
      simp only [List.forall_mem_cons, Item.test_holds, decide_eq_true_eq,
        childItems_hold_iff] at h
      obtain ⟨rfl, h⟩ := h
      exact ⟨_, _, .file hna, .file hnb, .file h⟩
    next lo hi lo' hi' hna hnb =>
      obtain ⟨_, h⟩ := h _ List.mem_cons_self
      simp only [sameBounds, Option.bind_eq_bind, Option.bind_eq_some_iff] at h
      obtain ⟨alo, h₁, ahi, h₂, blo, h₃, bhi, h₄, h⟩ := h
      obtain ⟨d, h₅, h₆⟩ := sameSubrange_domain (Option.some.inj h)
      exact absurd ⟨d, hasDomain_subrange ha hna h₁ h₂ h₅, hasDomain_subrange hb hnb h₃ h₄ h₆⟩
        hdomain
    next maxLength maxLength' hna hnb =>
      obtain ⟨_, h⟩ := h _ List.mem_cons_self
      simp only [sameCapacity, Option.bind_eq_bind, Option.bind_eq_some_iff] at h
      obtain ⟨ac, h₁, bc, h₂, h⟩ := h
      cases ac with
      | none => cases h
      | some k =>
        cases bc with
        | none => cases h
        | some k' =>
          have hk : k = k' := by simpa using h
          cases hk
          exact ⟨_, _, .string hna h₁, .string hnb h₂, .string⟩
    · simp at h
  · rintro ⟨f, g, hf, hg, h⟩
    cases h with
    | pointer h =>
      cases hf with
      | pointer hp =>
        cases hg with
        | pointer hq => rcases hpointer with h | h <;> simp_all
    | ordinal =>
      cases hf with
      | ordinal hf =>
        cases hg with
        | ordinal hg => exact absurd ⟨_, hf, hg⟩ hdomain
    | array h =>
      cases hf with
      | array hna hds =>
        cases hg with
        | array hnb hds' =>
          have hl := hds.length_eq.trans hds'.length_eq.symm
          have hdims := (dims_iff hl).mpr ⟨_, hds, hds'⟩
          simp only [kindItems, hna, hnb, List.cons_append, List.forall_mem_cons,
            List.forall_mem_append, List.forall_mem_map]
          exact ⟨by simp, by simp [hl], hdims, h, by simp⟩
    | set =>
      generalize hs : TypeForm.set _ = f at hg
      cases hf with
      | set hna hd₁ =>
        cases hg with
        | set hnb hd₂ =>
          have he := TypeForm.set.inj hs
          simpa [kindItems, hna, hnb] using exists_sameSetDomain.mpr ⟨_, _, hd₁, hd₂, he⟩
        | _ => cases hs
    | file h =>
      cases hf with
      | file hna =>
        cases hg with
        | file hnb => simpa [kindItems, hna, hnb] using childItems_hold_iff.mpr h
    | string =>
      cases hf with
      | string hna h₁ =>
        cases hg with
        | string hnb h₂ => simp [kindItems, hna, hnb, Item.Holds, sameCapacity, h₁, h₂]

end

/-! The relation on types. -/

/-- Two types with one descriptor, or whose forms agree. -/
inductive TypesAgree (r : TypeRegistry κ) (target : TargetInfo)
    (ev : BoundEvaluator κ (Fin r.descriptors))
    (T : Option (Fin r.size) → Option (Fin r.size) → Prop) (a b : Option (Fin r.size)) : Prop where
  | descriptor : r.sameDescriptor a b = true → TypesAgree r target ev T a b
  | form {s t : Fin r.size} {f g : TypeForm (Fin r.size) (Fin r.descriptors)} :
      r.payloadShape a = some s → r.payloadShape b = some t → r.HasForm target ev s f →
      r.HasForm target ev t g → FormsAgree T f g → TypesAgree r target ev T a b

variable {T T' : Option (Fin r.size) → Option (Fin r.size) → Prop}

theorem TypesAgree.mono {a b : Option (Fin r.size)} (hT : ∀ x y, T x y → T' x y)
    (h : r.TypesAgree target ev T a b) : r.TypesAgree target ev T' a b := by
  cases h with
  | descriptor h => exact .descriptor h
  | form hs ht hf hg h => exact .form hs ht hf hg (h.mono hT)

theorem TypesAgree.symm {a b : Option (Fin r.size)} (hT : ∀ x y, T x y → T' y x)
    (h : r.TypesAgree target ev T a b) : r.TypesAgree target ev T' b a := by
  cases h with
  | descriptor h => exact .descriptor (sameDescriptor_symm h)
  | form hs ht hf hg h => exact .form ht hs hg hf (h.symm hT)

theorem TypesAgree.of_same {a b c : Option (Fin r.size)} (hab : r.sameDescriptor a b = true)
    (h : r.TypesAgree target ev T b c) : r.TypesAgree target ev T a c := by
  cases h with
  | descriptor h => exact .descriptor (sameDescriptor_trans hab h)
  | form hs ht hf hg h =>
    rcases payloadShape_of_same hab with he | hbare
    · exact .form (he.trans hs) ht hf hg h
    · obtain ⟨hn, hp⟩ := hbare _ (.inr hs)
      exact absurd hf (not_hasForm_bare (payloadShape_shape hs) hn hp)

theorem TypesAgree.trans {a b c : Option (Fin r.size)} (hT : ∀ x y z, T x y → T y z → T x z)
    (h : r.TypesAgree target ev T a b) (h' : r.TypesAgree target ev T b c) :
    r.TypesAgree target ev T a c := by
  cases h with
  | descriptor h => exact h'.of_same h
  | form hs ht hf hg h =>
    cases h' with
    | descriptor h' =>
      have hba : r.TypesAgree target ev (fun x y => T y x) b a :=
        (TypesAgree.form hs ht hf hg h).symm fun _ _ => id
      exact (hba.of_same (sameDescriptor_symm h')).symm fun _ _ => id
    | form ht' hu hg' hk h' =>
      rw [ht] at ht'
      cases ht'
      cases hg.unique (payloadShape_shape ht) hg'
      exact .form hs hu hf hk (h.trans hT h')

theorem TypesAgree.bound {a b : Option (Fin r.size)} (h : r.TypesAgree target ev T a b) :
    r.sameDescriptor a b = true ∨
      ((r.payloadShape a).isSome = true ∧ (r.payloadShape b).isSome = true) := by
  cases h with
  | descriptor h => exact .inl h
  | form hs ht _ _ _ => exact .inr ⟨by rw [hs]; rfl, by rw [ht]; rfl⟩

theorem sameType_items_hold_iff {a b : Option (Fin r.size)}
    {l : List (Item (Option (Fin r.size) × Option (Fin r.size)))}
    (ho : (r.sameTypeComparison target ev).Opens (a,b) l) :
    (∀ i ∈ l, i.Holds (fun q => T q.1 q.2) (fun q => T q.1 q.2)) ↔
      r.TypesAgree target ev T a b := by
  obtain ⟨honce, n, hn⟩ := ho
  simp only [sameTypeComparison] at honce hn
  split_ifs at honce with hd
  rw [Bool.not_eq_true] at hd
  split at honce
  next s t hs ht =>
    have hd' : r.sameDescriptor (some s) (some t) = false := by
      rw [← hd, sameDescriptor, sameDescriptor, descriptor_of_payloadShape hs,
        descriptor_of_payloadShape ht]
      rfl
    rw [hs, ht] at hn
    simp only [sameTypeItems] at hn
    have hform : r.TypesAgree target ev T a b ↔ ∃ f g, r.HasForm target ev s f ∧
        r.HasForm target ev t g ∧ FormsAgree T f g := by
      constructor
      · intro h
        cases h with
        | descriptor h =>
          rw [h] at hd
          cases hd
        | form hs' ht' hf hg h =>
          rw [hs] at hs'
          rw [ht] at ht'
          cases hs'
          cases ht'
          exact ⟨_, _, hf, hg, h⟩
      · rintro ⟨f, g, hf, hg, h⟩
        exact .form hs ht hf hg h
    rw [hform]
    split at hn
    next ap ac bp bc hp hq =>
      cases hn
      rw [childItems_hold_iff]
      constructor
      · intro h
        exact ⟨_, _, .pointer hp, .pointer hq, .pointer h⟩
      · rintro ⟨f, g, hf, hg, h⟩
        cases hf.unique (payloadShape_shape hs) (.pointer hp)
        cases hg.unique (payloadShape_shape ht) (.pointer hq)
        cases h with
        | pointer h => exact h
    next hnot =>
      have hpointer : r.pointerShape s none = none ∨ r.pointerShape t none = none := by
        rw [← Option.not_isSome_iff_eq_none, ← Option.not_isSome_iff_eq_none, ← not_and_or]
        rintro ⟨hp, hq⟩
        obtain ⟨⟨p, c⟩, hp⟩ := Option.isSome_iff_exists.mp hp
        obtain ⟨⟨q, c'⟩, hq⟩ := Option.isSome_iff_exists.mp hq
        exact hnot p c q c' hp hq
      simp only [Option.bind_eq_bind, Option.bind_eq_some_iff] at hn
      obtain ⟨same, hsame, hl⟩ := hn
      have hdomain := sameOrdinalDomain_iff hsame
      cases same with
      | true =>
        cases hl
        obtain ⟨d, h₁, h₂⟩ := hdomain.mp rfl
        simpa using ⟨_, .ordinal h₁, _, .ordinal h₂, .ordinal⟩
      | false =>
        cases hl
        refine kindItems_hold_iff (payloadShape_shape hs) (payloadShape_shape ht) hd' hpointer ?_
        exact fun h => by cases hdomain.mpr h
  · cases honce

theorem alike_typesAgree {a b : Option (Fin r.size)}
    (h : (r.sameTypeComparison target ev).Alike (a,b)) :
    r.TypesAgree target ev (fun x y => (r.sameTypeComparison target ev).Alike (x,y)) a b := by
  rcases h.cases with h | ⟨l, ho, hl⟩
  · simp only [sameTypeComparison] at h
    split_ifs at h with hd
    · exact .descriptor hd
    · split at h
      next s t hs ht =>
        split_ifs at h with hst
        have hsome := descriptor_of_shape hs
        obtain ⟨d, hdesc⟩ := Option.isSome_iff_exists.mp hsome
        have ha := (descriptor_of_payloadShape hs).trans hdesc
        have hb := (descriptor_of_payloadShape ht).trans (hst ▸ hdesc)
        exact .descriptor (sameDescriptor_iff.mpr ⟨d, ha, hb⟩)
      · cases h
  · exact (sameType_items_hold_iff ho).mp hl

theorem not_refuted_of_typesAgree (hT : ∀ x y, T x y → r.TypesAgree target ev T x y)
    {a b : Option (Fin r.size)} (h : T a b) :
    ¬ (r.sameTypeComparison target ev).Refuted (a,b) := by
  refine Comparison.not_refuted (Q := fun q => T q.1 q.2) (fun q hq hf => ?_)
    (fun q l hq ho => (sameType_items_hold_iff ho).mpr (hT _ _ hq)) h
  simp only [sameTypeComparison] at hf
  rcases (hT _ _ hq).bound with h | ⟨ha, hb⟩
  · rw [if_pos h] at hf
    cases hf
  · obtain ⟨s, hs⟩ := Option.isSome_iff_exists.mp ha
    obtain ⟨t, ht⟩ := Option.isSome_iff_exists.mp hb
    simp only [hs, ht] at hf
    split_ifs at hf <;> cases hf

theorem sameType_iff {p q : Option (Fin r.size) × Option κ} {same : Bool} :
    r.SameType target ev p q same ↔
      (r.sameTypeComparison target ev).Returns (p.1,q.1) same := by
  unfold SameType Comparison.Returns
  simp only [sameTypeAstInContext_eq, Option.map_eq_some_iff]
  constructor
  · rintro ⟨n, ⟨b, s⟩, hn, hb⟩
    exact ⟨n, s, hb ▸ hn⟩
  · rintro ⟨n, s, hn⟩
    exact ⟨n, (same,s), hn, rfl⟩

theorem sameType_symm {p q : Option (Fin r.size) × Option κ} {same : Bool}
    (h : r.SameType target ev p q true) (h' : r.SameType target ev q p same) : same = true := by
  cases same with
  | true => rfl
  | false =>
    refine absurd (sameType_iff.mp h').refuted ?_
    refine not_refuted_of_typesAgree
      (T := fun x y => (r.sameTypeComparison target ev).Alike (y,x)) (fun x y hxy => ?_)
      (sameType_iff.mp h).alike
    exact (alike_typesAgree hxy).symm fun _ _ => id

theorem sameType_trans {p q s : Option (Fin r.size) × Option κ} {same : Bool}
    (h : r.SameType target ev p q true) (h' : r.SameType target ev q s true)
    (h'' : r.SameType target ev p s same) : same = true := by
  cases same with
  | true => rfl
  | false =>
    refine absurd (sameType_iff.mp h'').refuted ?_
    refine not_refuted_of_typesAgree
      (T := Relation.TransGen fun x y => (r.sameTypeComparison target ev).Alike (x,y))
      (fun x y hxy => ?_)
      (.tail (.single (sameType_iff.mp h).alike) (sameType_iff.mp h').alike)
    induction hxy with
    | single hxy => exact (alike_typesAgree hxy).mono fun _ _ => .single
    | tail _ hyz ih =>
      exact ih.trans (fun _ _ _ => .trans) ((alike_typesAgree hyz).mono fun _ _ => .single)

theorem sameType_refl {p : Option (Fin r.size) × Option κ} {same : Bool}
    (h : r.SameType target ev p p same) : same = (r.descriptorForType p.1).isSome := by
  obtain ⟨n, hn⟩ := h
  cases n with
  | zero => cases hn
  | succ n =>
    rw [sameTypeAstInContext] at hn
    cases hd : r.descriptorForType p.1 with
    | some d =>
      have hs : r.sameDescriptor p.1 p.1 = true := sameDescriptor_iff.mpr ⟨d, hd, hd⟩
      rw [hs] at hn
      cases hn
      rfl
    | none =>
      have hs : r.sameDescriptor p.1 p.1 = false := by simp [sameDescriptor, hd]
      have hnone : r.payloadShape p.1 = none := by
        rw [← Option.not_isSome_iff_eq_none, payloadShape_isSome, hd]
        simp
      rw [hs, semanticShapeType, hnone] at hn
      cases hn
      rfl

/-- Comparing types returns on all of `X`, and its yes is an equivalence there, exactly if the types
of `X` are bound and no comparison that two of them lead to leads back to itself or hangs. -/
theorem sameType_iff_settles (r : TypeRegistry κ) (target : TargetInfo)
    (ev : BoundEvaluator κ (Fin r.descriptors)) (X : Set (Option (Fin r.size) × Option κ)) :
    DecidesEquivalence (r.SameType target ev) X ↔
      (∀ p ∈ X, (r.descriptorForType p.1).isSome = true) ∧
        ∀ p ∈ X, ∀ q ∈ X, (r.sameTypeComparison target ev).Settles (p.1,q.1) := by
  have hsettles (p q : Option (Fin r.size) × Option κ) :
      (∃ same, r.SameType target ev p q same) ↔
        (r.sameTypeComparison target ev).Settles (p.1,q.1) := by
    rw [← Comparison.returns_iff_settles]
    simp only [sameType_iff]
  constructor
  · intro h
    refine ⟨fun p hp => ?_, fun p hp q hq => (hsettles p q).mp (h.total p hp q hq)⟩
    obtain ⟨same, hs⟩ := h.total p hp p hp
    rw [← sameType_refl hs, h.refl p hp same hs]
  · rintro ⟨hbound, h⟩
    refine ⟨fun p hp q hq => (hsettles p q).mpr (h p hp q hq), fun p hp same hs => ?_,
      fun p _ q _ same same' hs hs' => ?_, fun p _ q _ s _ same hs hs' hs'' => ?_⟩
    · rw [sameType_refl hs, hbound p hp]
    · cases same with
      | true => exact (sameType_symm hs hs').symm
      | false =>
        cases same' with
        | true => exact sameType_symm hs' hs
        | false => rfl
    · exact sameType_trans hs hs' hs''

end TypeRegistry

/-- `P1 = ^P1` and `P2 = ^P2`: node 0 is `^P1`, 1 the name `P1`, and 2 and 3 are the same for
`P2`. -/
def pointerRings : TypeRegistry Unit where
  size := 4
  descriptors := 2
  node
    | 0 => .tyPointer (some 1)
    | 2 => .tyPointer (some 3)
    | _ => .tyName
  descriptor
    | 0 => some 0
    | 1 => some 0
    | 2 => some 1
    | 3 => some 1
  typeContext _ := none
  payload
    | 0 => some 0
    | 1 => some 2
  primitive _ := none
  enumMembers _ := none
  payload_bound := by decide
  metaclass_name t d _ h := by fin_cases d <;> cases h
  metaclass_primitive _ _ := rfl
  bounds_scoped := by decide

def pointerRing (t : Fin 4) : Option (Fin pointerRings.size) := some t

def noConstants : BoundEvaluator Unit (Fin pointerRings.descriptors) :=
  ⟨fun _ _ => some none, fun _ _ => some none⟩

theorem pointerRings_asks :
    (pointerRings.sameTypeComparison ⟨64, TargetInfo.sixtyFour⟩ noConstants).Asks
      (pointerRing 1, pointerRing 3) (pointerRing 1, pointerRing 3) :=
  .afresh (l := []) (m := []) nofun ⟨rfl, 1, rfl⟩ nofun

/-- Comparing `P1` with `P2` never returns. -/
theorem not_sameType_rings :
    ¬ DecidesEquivalence (pointerRings.SameType ⟨64, TargetInfo.sixtyFour⟩ noConstants)
      {(pointerRing 1, none), (pointerRing 3, none)} := by
  intro h
  obtain ⟨same, hs⟩ := h.total (pointerRing 1, none) (.inl rfl) (pointerRing 3, none) (.inr rfl)
  have hsettles :=
    (Comparison.returns_iff_settles _).mp ⟨same, TypeRegistry.sameType_iff.mp hs⟩
  exact (hsettles _ .refl).2 (.single pointerRings_asks)

end Tp2cc
