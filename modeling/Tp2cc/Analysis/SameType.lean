import Tp2cc.Graph.Settling
import Tp2cc.Types.OrdinalDomain
import Tp2cc.Types.SignatureMatch

set_option autoImplicit false

namespace Tp2cc
open Graph

section
variable {δ : Type}

/-- The domain of a set, whose bounds may be given apart. -/
def OrdinalDomain.withBounds (d : OrdinalDomain δ) : Option (Int × Int) → OrdinalDomain δ
  | some (low, high) => { d with low, high }
  | none => d

def sameDomain [DecidableEq δ] (l r : Option (OrdinalDomain δ)) : Bool := l.isSome && l == r

/-- The condition on the bounds of two subranges. -/
def sameSubrange [DecidableEq δ] (alo ahi blo bhi : Option (OrdinalExprValue δ)) : Bool :=
  match alo, ahi, blo, bhi with
  | some alo, some ahi, some blo, some bhi =>
    alo.family = ahi.family ∧ alo.family = blo.family ∧ blo.family = bhi.family ∧
      alo.enumKey = ahi.enumKey ∧ alo.enumKey = blo.enumKey ∧ blo.enumKey = bhi.enumKey ∧
      alo.value = blo.value ∧ ahi.value = bhi.value
  | _, _, _, _ => false

end

namespace TypeRegistry
variable {κ : Type} (r : TypeRegistry κ) (target : TargetInfo)
  (ev : BoundEvaluator κ (Fin r.descriptors))

def pointerShape (shape : Fin r.size) (context : Option κ) :
    Option (PointerShape (Fin r.size) × Option κ) :=
  match r.node shape with
  | .tyPointer target => some (⟨target⟩, context)
  | .tyDistinct underlying =>
    match (r.payloadShape underlying).map r.node with
    | some (.tyPointer target) => some (⟨target⟩, r.childContext underlying context)
    | _ => none
  | _ => none

def sameOrdinalDomain (n : Nat) (left : Option (Fin r.size)) (leftContext : Option κ)
    (right : Option (Fin r.size)) (rightContext : Option κ) : Option Bool := do
  let ld ← r.ordinalDomainForType target ev n left leftContext
  let rd ← r.ordinalDomainForType target ev n right rightContext
  return sameDomain ld rd

def shortstringCapacity (maxLength : Option Expr) (context : Option κ) : Option (Option Int) :=
  match maxLength with
  | none => some (some 255)
  | some e => do
    let value ← ev.evalOrdinalExpr e context
    return value.bind fun v => if v.family = .integer then some v.value else none

def sameCapacity (a : Option Expr) (ac : Option κ) (b : Option Expr) (bc : Option κ) :
    Option Bool := do
  let ac ← r.shortstringCapacity ev a ac
  let bc ← r.shortstringCapacity ev b bc
  return ac.isSome && ac == bc

def sameBounds (lo hi : Expr) (ac : Option κ) (lo' hi' : Expr) (bc : Option κ) : Option Bool := do
  let alo ← ev.evalOrdinalExpr lo ac
  let ahi ← ev.evalOrdinalExpr hi ac
  let blo ← ev.evalOrdinalExpr lo' bc
  let bhi ← ev.evalOrdinalExpr hi' bc
  return sameSubrange alo ahi blo bhi

def sameSetDomain (n : Nat) (a : Option (Fin r.size)) (ac : Option κ)
    (abounds : Option (Int × Int)) (b : Option (Fin r.size)) (bc : Option κ)
    (bbounds : Option (Int × Int)) : Option Bool := do
  let ad ← r.ordinalDomainForType target ev n a ac
  let bd ← r.ordinalDomainForType target ev n b bc
  return sameDomain (ad.map (·.withBounds abounds)) (bd.map (·.withBounds bbounds))

def sameDims (n : Nat) (ac bc : Option κ) :
    List (Option (Fin r.size) × Option (Fin r.size)) → Option Bool
  | [] => some true
  | (a, b) :: rest => do
    let same ← r.sameOrdinalDomain target ev n a (r.childContext a ac) b (r.childContext b bc)
    if same then sameDims n ac bc rest else return false

section
variable (compare : Option (Fin r.size) → Option κ → Option (Fin r.size) → Option κ → Option Bool)

/-- Targets of pointers, or elements of files, which may both be missing. -/
def sameChildren (a : Option (Fin r.size)) (ac : Option κ) (b : Option (Fin r.size))
    (bc : Option κ) : Option Bool :=
  if a.isNone ∨ b.isNone then some (a.isNone && b.isNone)
  else compare a (r.childContext a ac) b (r.childContext b bc)

def sameShapes (n : Nat) (a : Fin r.size) (ac : Option κ) (b : Fin r.size) (bc : Option κ) :
    Option Bool :=
  match r.node a, r.node b with
  | .tyName, .tyName => some (r.sameDescriptor (some a) (some b))
  | .tyPointer target, .tyPointer target' => r.sameChildren compare target ac target' bc
  | .tyArray dims element isPacked arrayKind, .tyArray dims' element' isPacked' arrayKind' =>
    if arrayKind ≠ arrayKind' ∨ isPacked ≠ isPacked' then some false
    else if arrayKind ≠ .fixed ∨ dims.length ≠ dims'.length then some false
    else do
      if ← r.sameDims target ev n ac bc (dims.zip dims') then
        compare element (r.childContext element ac) element' (r.childContext element' bc)
      else return false
  | .tySet element bounds, .tySet element' bounds' =>
    r.sameSetDomain target ev n element (r.childContext element ac) bounds element'
      (r.childContext element' bc) bounds'
  | .tyFile element isText, .tyFile element' isText' =>
    if isText ≠ isText' then some false else r.sameChildren compare element ac element' bc
  | .tySubrange lo hi, .tySubrange lo' hi' => r.sameBounds ev lo hi ac lo' hi' bc
  | .tyString maxLength, .tyString maxLength' => r.sameCapacity ev maxLength ac maxLength' bc
  | _, _ => some false

/-- Two different shapes: pointers by their targets, then ordinals by their domains, then by kind. -/
def differentShapes (n : Nat) (a : Fin r.size) (ac : Option κ) (b : Fin r.size)
    (bc : Option κ) : Option Bool :=
  match r.pointerShape a ac, r.pointerShape b bc with
  | some (ap, apContext), some (bp, bpContext) =>
    r.sameChildren compare ap.target apContext bp.target bpContext
  | _, _ => do
    if ← r.sameOrdinalDomain target ev n (some a) ac (some b) bc then return true
    else r.sameShapes target ev compare n a ac b bc

end

/-- `same_type_ast_in_context`; `none` when the fuel runs out first. -/
def sameTypeAstInContext : Nat → Option (Fin r.size) → Option κ → Option (Fin r.size) →
    Option κ → Option Bool
  | 0, _, _, _, _ => none
  | n+1, a, aContext, b, bContext =>
    let aContext := r.childContext a aContext
    let bContext := r.childContext b bContext
    if r.sameDescriptor a b then some true
    else
      match r.semanticShapeType a aContext, r.semanticShapeType b bContext with
      | some (a, aContext), some (b, bContext) =>
        if a = b then some true
        else r.differentShapes target ev (sameTypeAstInContext n) n a aContext b bContext
      | _, _ => some false

def SameType (p q : Option (Fin r.size) × Option κ) (same : Bool) : Prop :=
  ∃ n, r.sameTypeAstInContext target ev n p.1 p.2 q.1 q.2 = some same

/-! The comparison as one that asks in order and always afresh. -/

section
variable {ν : Type}

def childItems (a b : Option ν) : List (Item (Option ν × Option ν)) :=
  if a.isNone ∨ b.isNone then [.test (a.isNone && b.isNone)] else [.afresh (a, b)]

end

def kindItems (a b : Fin r.size) : List (Item (Option (Fin r.size) × Option (Fin r.size))) :=
  match r.node a, r.node b with
  | .tyName, .tyName => [.test (r.sameDescriptor (some a) (some b))]
  | .tyPointer target, .tyPointer target' => childItems target target'
  | .tyArray dims element isPacked arrayKind, .tyArray dims' element' isPacked' arrayKind' =>
    .test (arrayKind = arrayKind' ∧ isPacked = isPacked') ::
      .test (arrayKind = .fixed ∧ dims.length = dims'.length) ::
      ((dims.zip dims').map fun d =>
        .check fun n => r.sameOrdinalDomain target ev n d.1 none d.2 none) ++
      [.afresh (element, element')]
  | .tySet element bounds, .tySet element' bounds' =>
    [.check fun n => r.sameSetDomain target ev n element none bounds element' none bounds']
  | .tyFile element isText, .tyFile element' isText' =>
    .test (isText = isText') :: childItems element element'
  | .tySubrange lo hi, .tySubrange lo' hi' =>
    [.check fun _ => r.sameBounds ev lo hi (r.typeContext a) lo' hi' (r.typeContext b)]
  | .tyString maxLength, .tyString maxLength' =>
    [.check fun _ =>
      r.sameCapacity ev maxLength (r.typeContext a) maxLength' (r.typeContext b)]
  | _, _ => [.test false]

def sameTypeItems (n : Nat) (a b : Fin r.size) :
    Option (List (Item (Option (Fin r.size) × Option (Fin r.size)))) :=
  match r.pointerShape a none, r.pointerShape b none with
  | some (ap, _), some (bp, _) => some (childItems ap.target bp.target)
  | _, _ => do
    if ← r.sameOrdinalDomain target ev n (some a) none (some b) none then return []
    else return r.kindItems target ev a b

variable {r target ev}

theorem sameOrdinalDomain_context (n : Nat) (a b : Option (Fin r.size)) (ac bc : Option κ) :
    r.sameOrdinalDomain target ev n a ac b bc =
      r.sameOrdinalDomain target ev n a none b none := by
  rw [sameOrdinalDomain, ordinalDomainForType_context n a ac none,
    ordinalDomainForType_context n b bc none]
  rfl

theorem sameSetDomain_context (n : Nat) (a b : Option (Fin r.size)) (ac bc : Option κ)
    (abounds bbounds : Option (Int × Int)) :
    r.sameSetDomain target ev n a ac abounds b bc bbounds =
      r.sameSetDomain target ev n a none abounds b none bbounds := by
  rw [sameSetDomain, ordinalDomainForType_context n a ac none,
    ordinalDomainForType_context n b bc none]
  rfl

theorem pointerShape_context (s : Fin r.size) (context : Option κ) :
    (r.pointerShape s context = none ∧ r.pointerShape s none = none) ∨
      ∃ p c c', r.pointerShape s context = some (p,c) ∧ r.pointerShape s none = some (p,c') := by
  unfold pointerShape
  split
  · exact .inr ⟨_, _, _, rfl, rfl⟩
  · split
    · exact .inr ⟨_, _, _, rfl, rfl⟩
    · exact .inl ⟨rfl, rfl⟩
  · exact .inl ⟨rfl, rfl⟩

theorem shortstringCapacity_context {s : Fin r.size} {maxLength : Option Expr}
    (hd : (r.descriptor s).isSome = true) (hn : r.node s = .tyString maxLength)
    (context : Option κ) :
    r.shortstringCapacity ev maxLength (r.childContext (some s) context) =
      r.shortstringCapacity ev maxLength (r.typeContext s) := by
  cases maxLength with
  | none => rfl
  | some e => rw [childContext_of_bounds hd (by rw [hn]; rfl)]

section
variable {compare : Option (Fin r.size) → Option κ → Option (Fin r.size) → Option κ → Option Bool}
  {ask : List (Option (Fin r.size) × Option (Fin r.size)) →
    Option (Fin r.size) × Option (Fin r.size) →
    Option (Bool × List (Option (Fin r.size) × Option (Fin r.size)))}

theorem sameChildren_eq (h : ∀ a ac b bc, compare a ac b bc = (ask [] (a,b)).map Prod.fst)
    (n : Nat) (a b : Option (Fin r.size)) (ac bc : Option κ)
    (seen : List (Option (Fin r.size) × Option (Fin r.size))) :
    r.sameChildren compare a ac b bc = (runAll ask n (childItems a b) seen).map Prod.fst := by
  unfold sameChildren childItems
  split
  · rw [runAll_test]
    cases a.isNone && b.isNone <;> rfl
  · rw [runAll_afresh, h, Option.map_map]
    rfl

theorem sameDims_eq (n : Nat) (ac bc : Option κ)
    (l : List (Option (Fin r.size) × Option (Fin r.size)))
    (m : List (Item (Option (Fin r.size) × Option (Fin r.size))))
    (seen : List (Option (Fin r.size) × Option (Fin r.size))) (k : Option Bool)
    (hk : k = (runAll ask n m seen).map Prod.fst) :
    (do if ← r.sameDims target ev n ac bc l then k else return false) =
      (runAll ask n (l.map (fun d =>
        .check fun n => r.sameOrdinalDomain target ev n d.1 none d.2 none) ++ m) seen).map
        Prod.fst := by
  induction l with
  | nil => simpa [sameDims] using hk
  | cons d l ih =>
    simp only [sameDims, List.map_cons, List.cons_append, runAll_check]
    rw [sameOrdinalDomain_context]
    cases r.sameOrdinalDomain target ev n d.1 none d.2 none with
    | none => rfl
    | some same =>
      cases same with
      | false => rfl
      | true => exact ih

theorem sameShapes_eq (h : ∀ a ac b bc, compare a ac b bc = (ask [] (a,b)).map Prod.fst)
    (n : Nat) {a b : Fin r.size} (ha : (r.descriptor a).isSome = true)
    (hb : (r.descriptor b).isSome = true) (ac bc : Option κ)
    (seen : List (Option (Fin r.size) × Option (Fin r.size))) :
    r.sameShapes target ev compare n a (r.childContext (some a) ac) b
        (r.childContext (some b) bc) =
      (runAll ask n (r.kindItems target ev a b) seen).map Prod.fst := by
  unfold sameShapes kindItems
  split
  · rw [runAll_test]
    cases r.sameDescriptor (some a) (some b) <;> rfl
  · exact sameChildren_eq h ..
  next dims element isPacked arrayKind dims' element' isPacked' arrayKind' _ _ =>
    simp only [List.cons_append, runAll_test, decide_eq_true_eq]
    by_cases hk : arrayKind = arrayKind' ∧ isPacked = isPacked'
    · have hk' : ¬ (arrayKind ≠ arrayKind' ∨ isPacked ≠ isPacked') := by tauto
      rw [if_neg hk', if_pos hk]
      by_cases hf : arrayKind = .fixed ∧ dims.length = dims'.length
      · have hf' : ¬ (arrayKind ≠ .fixed ∨ dims.length ≠ dims'.length) := by tauto
        rw [if_neg hf', if_pos hf]
        refine sameDims_eq n _ _ _ _ seen _ ?_
        rw [runAll_afresh, h, Option.map_map]
        rfl
      · have hf' : arrayKind ≠ .fixed ∨ dims.length ≠ dims'.length := by tauto
        rw [if_pos hf', if_neg hf]
        rfl
    · have hk' : arrayKind ≠ arrayKind' ∨ isPacked ≠ isPacked' := by tauto
      rw [if_pos hk', if_neg hk]
      rfl
  next element bounds element' bounds' _ _ =>
    rw [runAll_check, sameSetDomain_context]
    cases r.sameSetDomain target ev n element none bounds element' none bounds' with
    | none => rfl
    | some same => cases same <;> rfl
  next element isText element' isText' _ _ =>
    simp only [runAll_test, decide_eq_true_eq]
    by_cases ht : isText = isText'
    · simp only [ht, ne_eq, not_true_eq_false, if_false, if_true]
      exact sameChildren_eq h ..
    · simp [ht]
  next lo hi lo' hi' hna hnb =>
    have hba : (r.node a).hasBounds = true := by rw [hna]; rfl
    have hbb : (r.node b).hasBounds = true := by rw [hnb]; rfl
    rw [childContext_of_bounds ha hba, childContext_of_bounds hb hbb, runAll_check]
    cases r.sameBounds ev lo hi (r.typeContext a) lo' hi' (r.typeContext b) with
    | none => rfl
    | some same => cases same <;> rfl
  next maxLength maxLength' hna hnb =>
    rw [sameCapacity, shortstringCapacity_context ha hna, shortstringCapacity_context hb hnb,
      ← sameCapacity, runAll_check]
    cases r.sameCapacity ev maxLength (r.typeContext a) maxLength' (r.typeContext b) with
    | none => rfl
    | some same => cases same <;> rfl
  next => rfl

theorem differentShapes_eq (h : ∀ a ac b bc, compare a ac b bc = (ask [] (a,b)).map Prod.fst)
    (n : Nat) {a b : Fin r.size} (ha : (r.descriptor a).isSome = true)
    (hb : (r.descriptor b).isSome = true) (ac bc : Option κ)
    (seen : List (Option (Fin r.size) × Option (Fin r.size))) :
    r.differentShapes target ev compare n a (r.childContext (some a) ac) b
        (r.childContext (some b) bc) =
      ((r.sameTypeItems target ev n a b).bind fun l => runAll ask n l seen).map Prod.fst := by
  have hrest : (show Option Bool from do
        if ← r.sameOrdinalDomain target ev n (some a) (r.childContext (some a) ac) (some b)
            (r.childContext (some b) bc) then return true
        else
          r.sameShapes target ev compare n a (r.childContext (some a) ac) b
            (r.childContext (some b) bc)) =
      ((do
        if ← r.sameOrdinalDomain target ev n (some a) none (some b) none then return []
        else return r.kindItems target ev a b).bind fun l => runAll ask n l seen).map
          Prod.fst := by
    rw [sameOrdinalDomain_context, sameShapes_eq h n ha hb ac bc seen]
    cases r.sameOrdinalDomain target ev n (some a) none (some b) none with
    | none => rfl
    | some same => cases same <;> rfl
  unfold differentShapes sameTypeItems
  rcases pointerShape_context a (r.childContext (some a) ac) with
    ⟨hp, hp'⟩ | ⟨ap, ac₁, ac₂, hp, hp'⟩
  · rw [hp, hp']
    exact hrest
  · rcases pointerShape_context b (r.childContext (some b) bc) with
      ⟨hq, hq'⟩ | ⟨bp, bc₁, bc₂, hq, hq'⟩
    · rw [hp, hp', hq, hq']
      exact hrest
    · rw [hp, hp', hq, hq']
      exact sameChildren_eq h ..

end

/-! The comparison. -/

theorem sameOrdinalDomain_succ {n : Nat} {a b : Option (Fin r.size)} {same : Bool}
    (h : r.sameOrdinalDomain target ev n a none b none = some same) :
    r.sameOrdinalDomain target ev (n+1) a none b none = some same := by
  simp only [sameOrdinalDomain, Option.bind_eq_bind, Option.bind_eq_some_iff] at h ⊢
  obtain ⟨ld, hl, rd, hr, hs⟩ := h
  exact ⟨ld, ordinalDomainForType_succ hl, rd, ordinalDomainForType_succ hr, hs⟩

theorem sameSetDomain_succ {n : Nat} {a b : Option (Fin r.size)}
    {abounds bbounds : Option (Int × Int)} {same : Bool}
    (h : r.sameSetDomain target ev n a none abounds b none bbounds = some same) :
    r.sameSetDomain target ev (n+1) a none abounds b none bbounds = some same := by
  simp only [sameSetDomain, Option.bind_eq_bind, Option.bind_eq_some_iff] at h ⊢
  obtain ⟨ad, ha, bd, hb, hs⟩ := h
  exact ⟨ad, ordinalDomainForType_succ ha, bd, ordinalDomainForType_succ hb, hs⟩

theorem sameTypeItems_succ {n : Nat} {a b : Fin r.size}
    {l : List (Item (Option (Fin r.size) × Option (Fin r.size)))}
    (h : r.sameTypeItems target ev n a b = some l) :
    r.sameTypeItems target ev (n+1) a b = some l := by
  unfold sameTypeItems at h ⊢
  split at h
  · exact h
  · simp only [Option.bind_eq_bind, Option.bind_eq_some_iff] at h ⊢
    obtain ⟨same, hs, hl⟩ := h
    exact ⟨same, sameOrdinalDomain_succ hs, hl⟩

theorem childItems_check {a b : Option (Fin r.size)} {c : Nat → Option Bool}
    (h : .check c ∈ childItems a b) (n m : Nat) : c n = c m := by
  unfold childItems at h
  split at h
  · simp [Item.test] at h
    rw [h]
  · simp at h

theorem kindItems_check {a b : Fin r.size} {c : Nat → Option Bool}
    (h : .check c ∈ r.kindItems target ev a b) {n : Nat} {same : Bool} (hs : c n = some same) :
    c (n+1) = some same := by
  unfold kindItems at h
  split at h
  · simp [Item.test] at h
    rw [h] at hs ⊢
    exact hs
  · rw [childItems_check h (n+1) n, hs]
  · simp only [Item.test, List.cons_append, List.mem_cons, List.mem_append, List.mem_map,
      Item.check.injEq, List.not_mem_nil, or_false, reduceCtorEq] at h
    rcases h with rfl | rfl | ⟨d, -, rfl⟩
    · exact hs
    · exact hs
    · exact sameOrdinalDomain_succ hs
  · simp only [List.mem_singleton, Item.check.injEq] at h
    rw [h] at hs ⊢
    exact sameSetDomain_succ hs
  · rcases List.mem_cons.mp h with h | h
    · simp only [Item.test, Item.check.injEq] at h
      rw [h] at hs ⊢
      exact hs
    · rw [childItems_check h (n+1) n, hs]
  · simp only [List.mem_singleton, Item.check.injEq] at h
    rw [h] at hs ⊢
    exact hs
  · simp only [List.mem_singleton, Item.check.injEq] at h
    rw [h] at hs ⊢
    exact hs
  · simp only [Item.test, List.mem_singleton, Item.check.injEq] at h
    rw [h] at hs ⊢
    exact hs

theorem sameTypeItems_check {n : Nat} {a b : Fin r.size}
    {l : List (Item (Option (Fin r.size) × Option (Fin r.size)))}
    (h : r.sameTypeItems target ev n a b = some l) {c : Nat → Option Bool} (hc : .check c ∈ l)
    {m : Nat} {same : Bool} (hs : c m = some same) : c (m+1) = some same := by
  unfold sameTypeItems at h
  split at h
  · cases h
    rw [childItems_check hc (m+1) m, hs]
  · simp only [Option.bind_eq_bind, Option.bind_eq_some_iff] at h
    obtain ⟨domains, -, hl⟩ := h
    cases domains with
    | true =>
      cases hl
      cases hc
    | false =>
      cases hl
      exact kindItems_check hc hs

def sameTypeComparison (r : TypeRegistry κ) (target : TargetInfo)
    (ev : BoundEvaluator κ (Fin r.descriptors)) :
    Comparison (Option (Fin r.size) × Option (Fin r.size)) where
  atOnce q := if r.sameDescriptor q.1 q.2 then some true else
    match r.payloadShape q.1, r.payloadShape q.2 with
    | some a, some b => if a = b then some true else none
    | _, _ => some false
  items n q :=
    match r.payloadShape q.1, r.payloadShape q.2 with
    | some a, some b => r.sameTypeItems target ev n a b
    | _, _ => some []
  items_succ h := by
    split at h
    · exact sameTypeItems_succ h
    · exact h
  check_succ h hc hb := by
    split at h
    · exact sameTypeItems_check h hc hb
    · cases h
      cases hc

theorem sameTypeAstInContext_eq (n : Nat) (a b : Option (Fin r.size)) (ac bc : Option κ) :
    r.sameTypeAstInContext target ev n a ac b bc =
      ((r.sameTypeComparison target ev).answer n [] (a,b)).map Prod.fst := by
  induction n generalizing a b ac bc with
  | zero => rfl
  | succ n ih =>
    rw [sameTypeAstInContext, Comparison.answer]
    simp only [sameTypeComparison]
    cases hd : r.sameDescriptor a b with
    | true => rfl
    | false =>
      simp only [semanticShapeType]
      cases ha : r.payloadShape a with
      | none => rfl
      | some s =>
        cases hb : r.payloadShape b with
        | none => rfl
        | some t =>
          simp only [Option.map_some, Bool.false_eq_true, if_false]
          by_cases hst : s = t
          · simp [hst]
          · simp only [hst, if_false, List.not_mem_nil]
            exact differentShapes_eq (fun a ac b bc => ih a b ac bc) n 
              (descriptor_of_shape ha) (descriptor_of_shape hb) _ _ _

end TypeRegistry
end Tp2cc
