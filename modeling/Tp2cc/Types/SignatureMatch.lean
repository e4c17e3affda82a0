import Tp2cc.Graph.Settling
import Tp2cc.Types.Registry

set_option autoImplicit false

namespace Tp2cc
open Graph

variable {κ : Type}

/-- A group without names stands for one parameter. -/
def flattenedParams {ν : Type} (params : List (SignatureParam ν)) : List (SignatureParam ν) :=
  params.flatMap fun p =>
    List.replicate (if p.names.isEmpty then 1 else p.names.length) p

structure PointerShape (ν : Type) where
  target : Option ν

section
variable {ν : Type}

def matchTypes (compare : Option ν → Option ν → List (Option ν × Option ν) →
      Option (Bool × List (Option ν × Option ν))) :
    List (Option ν × Option ν) → List (Option ν × Option ν) →
      Option (Bool × List (Option ν × Option ν))
  | [], seen => some (true, seen)
  | (a, b) :: rest, seen => do
    let (same, seen) ← compare a b seen
    if same then matchTypes compare rest seen else return (false, seen)

def matchParams (compare : Option ν → Option ν → Option Bool) :
    List (SignatureParam ν × SignatureParam ν) → Option Bool
  | [] => some true
  | (a, b) :: rest => do
    if a.mode ≠ b.mode then return false
    if ← compare a.type b.type then matchParams compare rest else return false

def boundSignatureParamsMatch (compare : Option ν → Option ν → Option Bool)
    (a b : List (SignatureParam ν)) : Option Bool :=
  if (flattenedParams a).length ≠ (flattenedParams b).length then some false
  else matchParams compare ((flattenedParams a).zip (flattenedParams b))

def matchShapes (compare : Option ν → Option ν → List (Option ν × Option ν) →
      Option (Bool × List (Option ν × Option ν))) (seen : List (Option ν × Option ν)) :
    TypeNode ν → TypeNode ν → Option (Bool × List (Option ν × Option ν))
  | .tyString _, .tyString _ => some (true, seen)
  | .tySet element _, .tySet element' _ => compare element element' seen
  | .tyFile element isText, .tyFile element' isText' =>
    if isText ≠ isText' then some (false, seen)
    else if element.isNone ∨ element'.isNone then
      some (element.isNone && element'.isNone, seen)
    else compare element element' seen
  | .tyArray dims element _ arrayKind, .tyArray dims' element' _ arrayKind' =>
    if arrayKind ≠ arrayKind' ∨ dims.length ≠ dims'.length then some (false, seen)
    else matchTypes compare (dims.zip dims' ++ [(element, element')]) seen
  | .tyProcedural isFunction params returnType isCdecl isMethod,
    .tyProcedural isFunction' params' returnType' isCdecl' isMethod' =>
    if isFunction = isFunction' ∧ isMethod = isMethod' ∧ isCdecl = isCdecl' then do
      let (same, seen) ← compare returnType returnType' seen
      if same then
        let same ← boundSignatureParamsMatch (fun a b => (compare a b []).map Prod.fst)
          params params'
        return (same, seen)
      else return (false, seen)
    else some (false, seen)
  | _, _ => some (false, seen)

end

namespace TypeRegistry
variable (r : TypeRegistry κ)

/-- `signature_pointer_shape`; a pointer is looked for through distinct types. -/
def signaturePointerShape : Nat → Option (Fin r.size) → Option (Option (PointerShape (Fin r.size)))
  | 0, _ => none
  | n+1, type =>
    match r.payloadShape type with
    | none => some none
    | some shape =>
      match r.node shape with
      | .tyPointer target => some (some ⟨target⟩)
      | .tyDistinct underlying => signaturePointerShape n underlying
      | _ => some none

/-- `bound_signature_type_exprs_match` with the pairs it has seen, which are only searched. -/
def boundSignatureTypeExprsMatch : Nat → Option (Fin r.size) → Option (Fin r.size) →
    List (Option (Fin r.size) × Option (Fin r.size)) →
      Option (Bool × List (Option (Fin r.size) × Option (Fin r.size)))
  | 0, _, _, _ => none
  | n+1, a, b, seen =>
    if a = b then some (true, seen)
    else if a.isNone ∨ b.isNone then some (false, seen)
    else if (a, b) ∈ seen then some (true, seen)
    else do
      let seen := (a, b) :: seen
      if r.sameDescriptor a b then return (true, seen)
      let ap ← signaturePointerShape r n a
      let bp ← signaturePointerShape r n b
      match ap, bp with
      | some ap, some bp => boundSignatureTypeExprsMatch n ap.target bp.target seen
      | some _, none => return (false, seen)
      | none, some _ => return (false, seen)
      | none, none =>
        match r.payloadShape a, r.payloadShape b with
        | some ashape, some bshape =>
          matchShapes (boundSignatureTypeExprsMatch n) seen (r.node ashape) (r.node bshape)
        | _, _ => return (false, seen)

def SignatureMatches (a b : Option (Fin r.size)) (same : Bool) : Prop :=
  ∃ n seen, r.boundSignatureTypeExprsMatch n a b [] = some (same, seen)

end TypeRegistry

/-! The matching as a comparison that asks in order. -/

def TypeNode.signatureItems {ν : Type} : TypeNode ν → TypeNode ν → List (Item (Option ν × Option ν))
  | .tyString _, .tyString _ => []
  | .tySet element _, .tySet element' _ => [.within (element, element')]
  | .tyFile element isText, .tyFile element' isText' =>
    .test (isText = isText') :: (if element.isNone ∨ element'.isNone then
      [.test (element.isNone && element'.isNone)] else [.within (element, element')])
  | .tyArray dims element _ arrayKind, .tyArray dims' element' _ arrayKind' =>
    .test (arrayKind = arrayKind' ∧ dims.length = dims'.length) ::
      (dims.zip dims' ++ [(element, element')]).map .within
  | .tyProcedural isFunction params returnType isCdecl isMethod,
    .tyProcedural isFunction' params' returnType' isCdecl' isMethod' =>
    .test (isFunction = isFunction' ∧ isMethod = isMethod' ∧ isCdecl = isCdecl') ::
      .within (returnType, returnType') ::
      .test ((flattenedParams params).length = (flattenedParams params').length) ::
      ((flattenedParams params).zip (flattenedParams params')).flatMap fun p =>
        [.test (p.1.mode = p.2.mode), .afresh (p.1.type, p.2.type)]
  | _, _ => [.test false]

theorem TypeNode.signatureItems_check {ν : Type} {a b : TypeNode ν} {c : Nat → Option Bool}
    (h : .check c ∈ a.signatureItems b) (n m : Nat) : c n = c m := by
  unfold TypeNode.signatureItems at h
  split at h
  · simp at h
  · simp at h
  · simp [Item.test] at h
    grind
  · simp [Item.test] at h
    grind
  · simp [Item.test] at h
    grind
  · simp [Item.test] at h
    grind

namespace TypeRegistry
variable (r : TypeRegistry κ)

def shapeItems (a b : Option (Fin r.size)) : List (Item (Option (Fin r.size) × Option (Fin r.size))) :=
  match r.payloadShape a, r.payloadShape b with
  | some ashape, some bshape => (r.node ashape).signatureItems (r.node bshape)
  | _, _ => [.test false]

def pointerItems (q : Option (Fin r.size) × Option (Fin r.size)) :
    Option (PointerShape (Fin r.size)) → Option (PointerShape (Fin r.size)) →
      List (Item (Option (Fin r.size) × Option (Fin r.size)))
  | some ap, some bp => [.within (ap.target, bp.target)]
  | none, none => r.shapeItems q.1 q.2
  | _, _ => [.test false]

def signatureItems (n : Nat) (q : Option (Fin r.size) × Option (Fin r.size)) :
    Option (List (Item (Option (Fin r.size) × Option (Fin r.size)))) :=
  if r.sameDescriptor q.1 q.2 then some []
  else do
    let ap ← r.signaturePointerShape n q.1
    let bp ← r.signaturePointerShape n q.2
    return r.pointerItems q ap bp

variable {r}

theorem signaturePointerShape_succ {n : Nat} {type : Option (Fin r.size)}
    {p : Option (PointerShape (Fin r.size))} (h : r.signaturePointerShape n type = some p) :
    r.signaturePointerShape (n+1) type = some p := by
  induction n generalizing type with
  | zero => cases h
  | succ n ih =>
    rw [signaturePointerShape] at h ⊢
    split at h
    · exact h
    · split at h
      · exact h
      · exact ih h
      · exact h

theorem signatureItems_cases {n : Nat} {q : Option (Fin r.size) × Option (Fin r.size)}
    {l : List (Item (Option (Fin r.size) × Option (Fin r.size)))}
    (h : r.signatureItems n q = some l) :
    (r.sameDescriptor q.1 q.2 = true ∧ l = []) ∨
      (r.sameDescriptor q.1 q.2 = false ∧ ∃ ap bp, r.signaturePointerShape n q.1 = some ap ∧
        r.signaturePointerShape n q.2 = some bp ∧ l = r.pointerItems q ap bp) := by
  unfold signatureItems at h
  cases hs : r.sameDescriptor q.1 q.2 with
  | true =>
    rw [hs] at h
    cases h
    exact .inl ⟨rfl, rfl⟩
  | false =>
    simp only [hs, Bool.false_eq_true, if_false, Option.bind_eq_bind, Option.bind_eq_some_iff] at h
    obtain ⟨ap, ha, bp, hb, hl⟩ := h
    exact .inr ⟨rfl, ap, bp, ha, hb, (Option.some.inj hl).symm⟩

theorem pointerItems_check {q : Option (Fin r.size) × Option (Fin r.size)}
    {ap bp : Option (PointerShape (Fin r.size))} {c : Nat → Option Bool}
    (h : .check c ∈ r.pointerItems q ap bp) (n m : Nat) : c n = c m := by
  unfold pointerItems shapeItems at h
  split at h
  · simp at h
  · split at h
    · exact TypeNode.signatureItems_check h n m
    · simp [Item.test] at h
      rw [h]
  · simp [Item.test] at h
    rw [h]

def signatureComparison (r : TypeRegistry κ) :
    Comparison (Option (Fin r.size) × Option (Fin r.size)) where
  atOnce q := if q.1 = q.2 then some true
    else if q.1.isNone ∨ q.2.isNone then some false else none
  items := r.signatureItems
  items_succ h := by
    rcases signatureItems_cases h with ⟨hs, rfl⟩ | ⟨hs, ap, bp, ha, hb, rfl⟩
    · simp [signatureItems, hs]
    · simp [signatureItems, hs, signaturePointerShape_succ ha, signaturePointerShape_succ hb]
  check_succ h hc hb := by
    rcases signatureItems_cases h with ⟨-, rfl⟩ | ⟨-, ap, bp, -, -, rfl⟩
    · simp at hc
    · rw [← hb]
      exact pointerItems_check hc _ _

/-! The code asks the items. -/

section
variable {ν : Type} {compare : Option ν → Option ν → List (Option ν × Option ν) →
  Option (Bool × List (Option ν × Option ν))}
  {ask : List (Option ν × Option ν) → Option ν × Option ν →
    Option (Bool × List (Option ν × Option ν))}

theorem matchTypes_eq (h : ∀ a b seen, compare a b seen = ask seen (a,b)) (n : Nat)
    (l : List (Option ν × Option ν)) (seen : List (Option ν × Option ν)) :
    matchTypes compare l seen = runAll ask n (l.map .within) seen := by
  induction l generalizing seen with
  | nil => rfl
  | cons p l ih =>
    obtain ⟨a, b⟩ := p
    simp only [matchTypes, List.map_cons, runAll, Item.run, h, ih]
    rfl

theorem matchParams_eq (h : ∀ a b seen, compare a b seen = ask seen (a,b)) (n : Nat)
    (l : List (SignatureParam ν × SignatureParam ν)) (seen : List (Option ν × Option ν)) :
    (matchParams (fun a b => (compare a b []).map Prod.fst) l).map (fun same => (same, seen)) =
      runAll ask n (l.flatMap fun p =>
        [.test (p.1.mode = p.2.mode), .afresh (p.1.type, p.2.type)]) seen := by
  induction l with
  | nil => rfl
  | cons p l ih =>
    obtain ⟨a, b⟩ := p
    simp only [matchParams, List.flatMap_cons, List.cons_append, List.nil_append, runAll_test]
    by_cases hmode : a.mode = b.mode
    · simp only [h] at ih
      simp only [hmode, ne_eq, not_true_eq_false, if_false, decide_true, if_true, runAll, Item.run,
        h]
      cases ask [] (a.type, b.type) with
      | none => rfl
      | some r =>
        obtain ⟨same, s⟩ := r
        cases same with
        | false => rfl
        | true => exact ih
    · simp [hmode]

theorem matchShapes_eq (h : ∀ a b seen, compare a b seen = ask seen (a,b)) (n : Nat)
    (a b : TypeNode ν) (seen : List (Option ν × Option ν)) :
    matchShapes compare seen a b = runAll ask n (a.signatureItems b) seen := by
  unfold matchShapes
  split
  · rfl
  · simp [TypeNode.signatureItems, h]
  next element isText element' isText' =>
    simp only [TypeNode.signatureItems, runAll_test, decide_eq_true_eq]
    by_cases ht : isText = isText'
    · simp only [ht, ne_eq, not_true_eq_false, if_false, if_true]
      by_cases hn : element.isNone ∨ element'.isNone
      · rw [if_pos hn, if_pos hn, runAll_test]
        cases element.isNone && element'.isNone <;> rfl
      · rw [if_neg hn, if_neg hn, runAll_within, h]
    · simp [ht]
  next dims element packed arrayKind dims' element' packed' arrayKind' =>
    simp only [TypeNode.signatureItems, runAll_test, decide_eq_true_eq, ← matchTypes_eq h]
    by_cases hk : arrayKind = arrayKind' <;> by_cases hl : dims.length = dims'.length <;>
      simp [hk, hl]
  next isFunction params returnType isCdecl isMethod isFunction' params' returnType' isCdecl'
      isMethod' =>
    simp only [TypeNode.signatureItems, runAll_test, decide_eq_true_eq]
    by_cases hf : isFunction = isFunction' ∧ isMethod = isMethod' ∧ isCdecl = isCdecl'
    · rw [if_pos hf, if_pos hf, runAll, Item.run, h]
      cases ask seen (returnType, returnType') with
      | none => rfl
      | some r =>
        obtain ⟨same, s⟩ := r
        cases same with
        | false => rfl
        | true =>
          simp only [Option.bind_eq_bind, Option.bind_some, if_true, runAll_test,
            decide_eq_true_eq, ← matchParams_eq h, boundSignatureParamsMatch]
          by_cases hl : (flattenedParams params).length = (flattenedParams params').length
          · simp only [hl, ne_eq, not_true_eq_false, if_false, if_true]
            exact (Option.map_eq_bind ..).symm
          · simp [hl]
    · rw [if_neg hf, if_neg hf]
  next hstring hset hfile harray hproc =>
    unfold TypeNode.signatureItems
    split
    · exact (hstring _ _ rfl rfl).elim
    · exact (hset _ _ _ _ rfl rfl).elim
    · exact (hfile _ _ _ _ rfl rfl).elim
    · exact (harray _ _ _ _ _ _ _ _ rfl rfl).elim
    · exact (hproc _ _ _ _ _ _ _ _ _ _ rfl rfl).elim
    · simp

end

variable {r : TypeRegistry κ}

theorem boundSignatureTypeExprsMatch_eq (n : Nat) (a b : Option (Fin r.size))
    (seen : List (Option (Fin r.size) × Option (Fin r.size))) :
    r.boundSignatureTypeExprsMatch n a b seen = r.signatureComparison.answer n seen (a,b) := by
  induction n generalizing a b seen with
  | zero => rfl
  | succ n ih =>
    rw [boundSignatureTypeExprsMatch, Comparison.answer]
    by_cases hab : a = b
    · simp [signatureComparison, hab]
    · by_cases hnull : a.isNone ∨ b.isNone
      · simp only [signatureComparison, hab, hnull, if_true, if_false]
      · have honce : r.signatureComparison.atOnce (a,b) = none := by
          simp only [signatureComparison, hab, hnull, if_false]
        rw [honce]
        simp only [hab, hnull, if_false]
        by_cases hseen : (a,b) ∈ seen
        · simp only [hseen, if_true]
        · simp only [hseen, if_false]
          have hitems : r.signatureComparison.items n (a,b) = r.signatureItems n (a,b) := rfl
          rw [hitems, signatureItems]
          cases hs : r.sameDescriptor a b with
          | true => simp
          | false =>
            simp only [Bool.false_eq_true, if_false]
            cases ha : r.signaturePointerShape n a with
            | none => rfl
            | some ap =>
              cases hb : r.signaturePointerShape n b with
              | none => rfl
              | some bp =>
                simp only [Option.bind_eq_bind, Option.bind_some, pointerItems, shapeItems]
                cases ap with
                | some ap =>
                  cases bp with
                  | some bp => simp [ih]
                  | none => simp
                | none =>
                  cases bp with
                  | some bp => simp
                  | none =>
                    cases r.payloadShape a with
                    | none => simp
                    | some s =>
                      cases r.payloadShape b with
                      | none => simp
                      | some t => exact matchShapes_eq ih n _ _ _

end TypeRegistry
end Tp2cc
