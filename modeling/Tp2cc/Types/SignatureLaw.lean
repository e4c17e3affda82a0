import Mathlib.Data.List.Forall2
import Tp2cc.Types.SignatureMatch

set_option autoImplicit false

namespace Tp2cc
open Graph

section
variable {ν : Type}

inductive ShapesMatch (T : Option ν → Option ν → Prop) : TypeNode ν → TypeNode ν → Prop where
  | string {m m' : Option Expr} : ShapesMatch T (.tyString m) (.tyString m')
  | set {e e' : Option ν} {b b' : Option (Int × Int)} : T e e' →
      ShapesMatch T (.tySet e b) (.tySet e' b')
  | file {e e' : ν} {t : Bool} : T (some e) (some e') →
      ShapesMatch T (.tyFile (some e) t) (.tyFile (some e') t)
  | untypedFile {t : Bool} : ShapesMatch T (.tyFile none t) (.tyFile none t)
  | array {dims dims' : List (Option ν)} {e e' : Option ν} {p p' : Bool} {k : ArrayKind} :
      List.Forall₂ T dims dims' → T e e' →
      ShapesMatch T (.tyArray dims e p k) (.tyArray dims' e' p' k)
  | procedural {f c m : Bool} {ps qs : List (SignatureParam ν)} {t t' : Option ν} : T t t' →
      List.Forall₂ (fun p q => p.mode = q.mode ∧ T p.type q.type) (flattenedParams ps)
        (flattenedParams qs) →
      ShapesMatch T (.tyProcedural f ps t c m) (.tyProcedural f qs t' c m)

theorem forall₂_trans {β : Type} {R : β → β → Prop} (hR : ∀ x y z, R x y → R y z → R x z)
    {l l' l'' : List β} (h : List.Forall₂ R l l') (h' : List.Forall₂ R l' l'') :
    List.Forall₂ R l l'' := by
  induction h generalizing l'' with
  | nil => exact h'
  | cons hab _ ih =>
    cases h' with
    | cons hbc ht => exact .cons (hR _ _ _ hab hbc) (ih ht)

variable {T T' : Option ν → Option ν → Prop} {a b c : TypeNode ν}

theorem ShapesMatch.symm (hT : ∀ x y, T x y → T' y x) (h : ShapesMatch T a b) :
    ShapesMatch T' b a := by
  cases h with
  | string => exact .string
  | set h => exact .set (hT _ _ h)
  | file h => exact .file (hT _ _ h)
  | untypedFile => exact .untypedFile
  | array hd he => exact .array (hd.imp fun x y h => hT x y h).flip (hT _ _ he)
  | procedural ht hp =>
    refine .procedural (hT _ _ ht) ?_
    exact (hp.imp fun p q h => (⟨h.1.symm, hT _ _ h.2⟩ : q.mode = p.mode ∧ T' q.type p.type)).flip

theorem ShapesMatch.mono (hT : ∀ x y, T x y → T' x y) (h : ShapesMatch T a b) :
    ShapesMatch T' a b := by
  have hflip : ShapesMatch (fun x y => T' y x) b a := h.symm hT
  exact hflip.symm fun _ _ => id

theorem ShapesMatch.trans (hT : ∀ x y z, T x y → T y z → T x z) (h : ShapesMatch T a b)
    (h' : ShapesMatch T b c) : ShapesMatch T a c := by
  cases h with
  | string => cases h' with | string => exact .string
  | set h => cases h' with | set h' => exact .set (hT _ _ _ h h')
  | file h => cases h' with | file h' => exact .file (hT _ _ _ h h')
  | untypedFile => cases h' with | untypedFile => exact .untypedFile
  | array hd he =>
    cases h' with
    | array hd' he' => exact .array (forall₂_trans hT hd hd') (hT _ _ _ he he')
  | procedural ht hp =>
    cases h' with
    | procedural ht' hp' =>
      refine .procedural (hT _ _ _ ht ht') (forall₂_trans (fun x y z h h' => ?_) hp hp')
      exact ⟨h.1.trans h'.1, hT _ _ _ h.2 h'.2⟩

theorem signatureItems_hold_iff : (∀ i ∈ a.signatureItems b,
    i.Holds (fun q => T q.1 q.2) (fun q => T q.1 q.2)) ↔ ShapesMatch T a b := by
  unfold TypeNode.signatureItems
  split
  · simp [ShapesMatch.string]
  next element bounds element' bounds' =>
    simp only [List.mem_singleton, forall_eq, Item.within_holds]
    constructor
    · exact .set
    · intro h
      cases h with | set h => exact h
  next element isText element' isText' =>
    cases element with
    | none =>
      cases element' with
      | none =>
        simp only [Option.isNone_none, true_or, if_true, List.mem_cons, List.not_mem_nil, or_false,
          forall_eq_or_imp, forall_eq, Item.test_holds, decide_eq_true_eq, Bool.and_self, and_true]
        constructor
        · rintro rfl
          exact .untypedFile
        · intro h
          cases h with | untypedFile => rfl
      | some e =>
        constructor
        · intro h
          have := h (.test false) (by simp)
          simp at this
        · intro h
          cases h
    | some e =>
      cases element' with
      | none =>
        constructor
        · intro h
          have := h (.test false) (by simp)
          simp at this
        · intro h
          cases h
      | some e' =>
        constructor
        · intro h
          have ht : isText = isText' := by simpa using h (.test (isText = isText')) (by simp)
          subst ht
          exact .file (h (.within (some e, some e')) (by simp))
        · intro h
          cases h with | file h => simp [h]
  next dims element packed arrayKind dims' element' packed' arrayKind' =>
    constructor
    · intro h
      have hk := h (.test (arrayKind = arrayKind' ∧ dims.length = dims'.length)) (by simp)
      obtain ⟨hk, hl⟩ := of_decide_eq_true (Item.test_holds.mp hk)
      subst hk
      refine .array (List.forall₂_iff_zip.mpr ⟨hl, fun {x y} hm => ?_⟩) ?_
      · exact h (.within (x,y)) (by simp [hm])
      · exact h (.within (element, element')) (by simp)
    · intro h
      cases h with
      | array hd he =>
        intro i hi
        simp only [hd.length_eq, List.map_append, List.map_cons, List.map_nil, List.mem_cons,
          List.mem_append, List.mem_map, List.not_mem_nil, or_false, and_self, decide_true] at hi
        rcases hi with rfl | ⟨⟨x, y⟩, hm, rfl⟩ | rfl
        · simp
        · exact List.forall₂_zip hd hm
        · exact he
  next isFunction params returnType isCdecl isMethod isFunction' params' returnType' isCdecl'
      isMethod' =>
    constructor
    · intro h
      have hf := h (.test (isFunction = isFunction' ∧ isMethod = isMethod' ∧ isCdecl = isCdecl'))
        (by simp)
      obtain ⟨rfl, rfl, rfl⟩ := of_decide_eq_true (Item.test_holds.mp hf)
      have hl := h (.test ((flattenedParams params).length = (flattenedParams params').length))
        (by simp)
      refine .procedural (h (.within (returnType, returnType')) (by simp))
        (List.forall₂_iff_zip.mpr ⟨of_decide_eq_true (Item.test_holds.mp hl), fun {p q} hm => ?_⟩)
      constructor
      · have hmode := h (.test (p.mode = q.mode)) (by
          refine List.mem_cons_of_mem _ (List.mem_cons_of_mem _ (List.mem_cons_of_mem _ ?_))
          exact List.mem_flatMap.mpr ⟨(p,q), hm, by simp⟩)
        exact of_decide_eq_true (Item.test_holds.mp hmode)
      · refine h (.afresh (p.type, q.type)) ?_
        refine List.mem_cons_of_mem _ (List.mem_cons_of_mem _ (List.mem_cons_of_mem _ ?_))
        exact List.mem_flatMap.mpr ⟨(p,q), hm, by simp⟩
    · intro h
      cases h with
      | procedural ht hp =>
        intro i hi
        simp only [hp.length_eq, List.mem_cons, List.mem_flatMap, List.not_mem_nil, or_false,
          and_self, decide_true] at hi
        rcases hi with rfl | rfl | rfl | ⟨⟨p, q⟩, hm, rfl | rfl⟩
        · simp
        · exact ht
        · simp
        · simpa using (List.forall₂_zip hp hm).1
        · exact (List.forall₂_zip hp hm).2
  next hstring hset hfile harray hproc =>
    constructor
    · intro h
      have := h (.test false) (by simp)
      simp at this
    · intro h
      cases h with
      | string => exact (hstring _ _ rfl rfl).elim
      | set _ => exact (hset _ _ _ _ rfl rfl).elim
      | file _ => exact (hfile _ _ _ _ rfl rfl).elim
      | untypedFile => exact (hfile _ _ _ _ rfl rfl).elim
      | array _ _ => exact (harray _ _ _ _ _ _ _ _ rfl rfl).elim
      | procedural _ _ => exact (hproc _ _ _ _ _ _ _ _ _ _ rfl rfl).elim

end

namespace TypeRegistry
variable {κ : Type} {r : TypeRegistry κ}

def PointsTo (r : TypeRegistry κ) (a : Option (Fin r.size))
    (p : Option (PointerShape (Fin r.size))) : Prop := ∃ n, r.signaturePointerShape n a = some p

/-- Two expressions that are the same, of the same type, pointers to what is related, or of
matching shapes. -/
inductive Agree (r : TypeRegistry κ) (T : Option (Fin r.size) → Option (Fin r.size) → Prop)
    (a b : Option (Fin r.size)) : Prop where
  | equal : a = b → Agree r T a b
  | descriptor : r.sameDescriptor a b = true → Agree r T a b
  | pointer {ap bp : PointerShape (Fin r.size)} : r.PointsTo a (some ap) →
      r.PointsTo b (some bp) → T ap.target bp.target → Agree r T a b
  | shape {s t : Fin r.size} : r.PointsTo a none → r.PointsTo b none →
      r.payloadShape a = some s → r.payloadShape b = some t →
      ShapesMatch T (r.node s) (r.node t) → Agree r T a b

theorem signaturePointerShape_mono {n m : Nat} (hle : n ≤ m) {a : Option (Fin r.size)}
    {p : Option (PointerShape (Fin r.size))} (h : r.signaturePointerShape n a = some p) :
    r.signaturePointerShape m a = some p := by
  induction hle with
  | refl => exact h
  | step _ ih => exact signaturePointerShape_succ ih

theorem PointsTo.unique {a : Option (Fin r.size)} {p q : Option (PointerShape (Fin r.size))}
    (h : r.PointsTo a p) (h' : r.PointsTo a q) : p = q := by
  obtain ⟨n, hn⟩ := h
  obtain ⟨m, hm⟩ := h'
  have h₁ := signaturePointerShape_mono (Nat.le_max_left n m) hn
  have h₂ := signaturePointerShape_mono (Nat.le_max_right n m) hm
  exact Option.some.inj (h₁.symm.trans h₂)

theorem PointsTo.congr {a b : Option (Fin r.size)} {p : Option (PointerShape (Fin r.size))}
    (h : r.PointsTo b p) (hs : r.payloadShape a = r.payloadShape b) : r.PointsTo a p := by
  obtain ⟨n, hn⟩ := h
  refine ⟨n, ?_⟩
  cases n with
  | zero => cases hn
  | succ n =>
    rw [signaturePointerShape] at hn ⊢
    rw [hs]
    exact hn

theorem pointsTo_bare {a : Option (Fin r.size)} {s : Fin r.size} (hs : r.payloadShape a = some s)
    (h : r.node s = .tyName ∨ r.node s = .tyMetaclass) : r.PointsTo a none := by
  refine ⟨1, ?_⟩
  rw [signaturePointerShape, hs]
  rcases h with h | h <;> simp [h]

variable {T T' : Option (Fin r.size) → Option (Fin r.size) → Prop}

theorem Agree.mono {a b : Option (Fin r.size)} (hT : ∀ x y, T x y → T' x y)
    (h : r.Agree T a b) : r.Agree T' a b := by
  cases h with
  | equal h => exact .equal h
  | descriptor h => exact .descriptor h
  | pointer ha hb h => exact .pointer ha hb (hT _ _ h)
  | shape ha hb hs ht h => exact .shape ha hb hs ht (h.mono hT)

theorem Agree.symm {a b : Option (Fin r.size)} (hT : ∀ x y, T x y → T' y x)
    (h : r.Agree T a b) : r.Agree T' b a := by
  cases h with
  | equal h => exact .equal h.symm
  | descriptor h => exact .descriptor (sameDescriptor_symm h)
  | pointer ha hb h => exact .pointer hb ha (hT _ _ h)
  | shape ha hb hs ht h => exact .shape hb ha ht hs (h.symm hT)

theorem Agree.of_same {a b c : Option (Fin r.size)} (hab : r.sameDescriptor a b = true)
    (h : r.Agree T b c) : r.Agree T a c := by
  cases h with
  | equal h => exact .descriptor (h ▸ hab)
  | descriptor h => exact .descriptor (sameDescriptor_trans hab h)
  | pointer hb hc h =>
    rcases payloadShape_of_same hab with hs | hbare
    · exact .pointer (hb.congr hs) hc h
    · obtain ⟨d, -, hd⟩ := sameDescriptor_iff.mp hab
      have hsome : (r.payloadShape b).isSome = true := by rw [payloadShape_isSome, hd]; rfl
      obtain ⟨s, hs⟩ := Option.isSome_iff_exists.mp hsome
      cases hb.unique (pointsTo_bare hs (hbare s (.inr hs)).1)
  | shape hb hc hs ht h =>
    rcases payloadShape_of_same hab with hs' | hbare
    · exact .shape (hb.congr hs') hc (hs'.trans hs) ht h
    · rcases (hbare _ (.inr hs)).1 with hn | hn <;> rw [hn] at h <;> cases h

theorem Agree.to_same {a b c : Option (Fin r.size)} (h : r.Agree T a b)
    (hbc : r.sameDescriptor b c = true) : r.Agree T a c := by
  have hflip : r.Agree (fun x y => T y x) b a := h.symm fun _ _ => id
  exact (hflip.of_same (sameDescriptor_symm hbc)).symm fun _ _ => id

theorem Agree.trans {a b c : Option (Fin r.size)} (hT : ∀ x y z, T x y → T y z → T x z)
    (h : r.Agree T a b) (h' : r.Agree T b c) : r.Agree T a c := by
  cases h with
  | equal h => exact h ▸ h'
  | descriptor h => exact h'.of_same h
  | pointer ha hb h =>
    cases h' with
    | equal h' => exact .pointer ha (h' ▸ hb) h
    | descriptor h' => exact (Agree.pointer ha hb h).to_same h'
    | pointer hb' hc h' =>
      cases hb.unique hb'
      exact .pointer ha hc (hT _ _ _ h h')
    | shape hb' _ _ _ _ => cases hb.unique hb'
  | shape ha hb hs ht h =>
    cases h' with
    | equal h' => exact .shape ha (h' ▸ hb) hs (h' ▸ ht) h
    | descriptor h' => exact (Agree.shape ha hb hs ht h).to_same h'
    | pointer hb' _ _ => cases hb.unique hb'
    | shape hb' hc ht' hu h' =>
      rw [ht] at ht'
      cases ht'
      exact .shape ha hc hs hu (h.trans hT h')

theorem items_hold_iff {a b : Option (Fin r.size)}
    {l : List (Item (Option (Fin r.size) × Option (Fin r.size)))}
    (ho : r.signatureComparison.Opens (a,b) l) :
    (∀ i ∈ l, i.Holds (fun q => T q.1 q.2) (fun q => T q.1 q.2)) ↔ r.Agree T a b := by
  obtain ⟨honce, n, hn⟩ := ho
  have hne : a ≠ b := by
    rintro rfl
    simp [signatureComparison] at honce
  rcases signatureItems_cases hn with ⟨hs, rfl⟩ | ⟨hs, ap, bp, ha, hb, rfl⟩
  · simp [Agree.descriptor hs]
  · have hpa : r.PointsTo a ap := ⟨n, ha⟩
    have hpb : r.PointsTo b bp := ⟨n, hb⟩
    constructor
    · intro h
      cases ap with
      | some ap =>
        cases bp with
        | some bp => exact .pointer hpa hpb (by simpa [pointerItems] using h)
        | none => simp [pointerItems] at h
      | none =>
        cases bp with
        | some bp => simp [pointerItems] at h
        | none =>
          rw [pointerItems, shapeItems] at h
          split at h
          next s t hs ht => exact .shape hpa hpb hs ht (signatureItems_hold_iff.mp h)
          · simp at h
    · intro h
      cases h with
      | equal h => exact absurd h hne
      | descriptor h =>
        rw [h] at hs
        cases hs
      | pointer ha' hb' h =>
        cases hpa.unique ha'
        cases hpb.unique hb'
        simpa [pointerItems] using h
      | shape ha' hb' hs' ht' h =>
        cases hpa.unique ha'
        cases hpb.unique hb'
        rw [pointerItems, shapeItems, hs', ht']
        exact signatureItems_hold_iff.mpr h

theorem pointsTo_null {p : Option (PointerShape (Fin r.size))} (h : r.PointsTo none p) :
    p = none := h.unique ⟨1, rfl⟩

theorem Agree.nonnull {a b : Option (Fin r.size)} (h : r.Agree T a b) (hne : a ≠ b) :
    a.isSome = true ∧ b.isSome = true := by
  have hsome {c : Option (Fin r.size)} (hc : c ≠ none) : c.isSome = true :=
    Option.isSome_iff_ne_none.mpr hc
  cases h with
  | equal h => exact absurd h hne
  | descriptor h =>
    obtain ⟨d, ha, hb⟩ := sameDescriptor_iff.mp h
    exact ⟨hsome (by rintro rfl; cases ha), hsome (by rintro rfl; cases hb)⟩
  | pointer ha hb _ =>
    exact ⟨hsome (by rintro rfl; cases pointsTo_null ha), hsome (by rintro rfl; cases pointsTo_null hb)⟩
  | shape _ _ hs ht _ =>
    exact ⟨hsome (by rintro rfl; cases hs), hsome (by rintro rfl; cases ht)⟩

theorem alike_agree {a b : Option (Fin r.size)} (h : r.signatureComparison.Alike (a,b)) :
    r.Agree (fun x y => r.signatureComparison.Alike (x,y)) a b := by
  rcases h.cases with h | ⟨l, ho, hl⟩
  · simp only [signatureComparison] at h
    split_ifs at h with hab
    · exact .equal hab
    · cases h
  · exact (items_hold_iff ho).mp hl

theorem not_refuted_of_agree (hT : ∀ x y, T x y → r.Agree T x y) {a b : Option (Fin r.size)}
    (h : T a b) : ¬ r.signatureComparison.Refuted (a,b) := by
  refine Comparison.not_refuted (Q := fun q => T q.1 q.2) (fun q hq hf => ?_)
    (fun q l hq ho => (items_hold_iff ho).mpr (hT _ _ hq)) h
  simp only [signatureComparison] at hf
  by_cases hne : q.1 = q.2
  · rw [if_pos hne] at hf
    cases hf
  · obtain ⟨h₁, h₂⟩ := (hT _ _ hq).nonnull hne
    have hnull : ¬ (q.1.isNone ∨ q.2.isNone) := by simp [Option.isNone_iff_eq_none,
      Option.isSome_iff_ne_none.mp h₁, Option.isSome_iff_ne_none.mp h₂]
    rw [if_neg hne, if_neg hnull] at hf
    cases hf

theorem signatureMatches_iff {a b : Option (Fin r.size)} {same : Bool} :
    r.SignatureMatches a b same ↔ r.signatureComparison.Returns (a,b) same := by
  unfold SignatureMatches Comparison.Returns
  simp only [boundSignatureTypeExprsMatch_eq]

theorem signatureMatches_symm {a b : Option (Fin r.size)} {same : Bool}
    (h : r.SignatureMatches a b true) (h' : r.SignatureMatches b a same) : same = true := by
  cases same with
  | true => rfl
  | false =>
    refine absurd (signatureMatches_iff.mp h').refuted ?_
    refine not_refuted_of_agree (T := fun x y => r.signatureComparison.Alike (y,x)) ?_
      (signatureMatches_iff.mp h).alike
    exact fun x y hxy => (alike_agree hxy).symm fun _ _ => id

theorem signatureMatches_trans {a b c : Option (Fin r.size)} {same : Bool}
    (h : r.SignatureMatches a b true) (h' : r.SignatureMatches b c true)
    (h'' : r.SignatureMatches a c same) : same = true := by
  cases same with
  | true => rfl
  | false =>
    refine absurd (signatureMatches_iff.mp h'').refuted ?_
    refine not_refuted_of_agree
      (T := Relation.TransGen fun x y => r.signatureComparison.Alike (x,y)) (fun x y hxy => ?_)
      (.tail (.single (signatureMatches_iff.mp h).alike) (signatureMatches_iff.mp h').alike)
    induction hxy with
    | single hxy => exact (alike_agree hxy).mono fun _ _ => .single
    | tail _ hyz ih =>
      exact ih.trans (fun _ _ _ => .trans) ((alike_agree hyz).mono fun _ _ => .single)

/-- Matching signature types returns on all of `X`, and its yes is an equivalence there, exactly if
no two types of parameters that it comes to lead back to themselves, and no distinct type that it
comes to is declared through itself. -/
theorem signatureMatches_iff_settles (r : TypeRegistry κ) (X : Set (Option (Fin r.size))) :
    DecidesEquivalence r.SignatureMatches X ↔
      ∀ a ∈ X, ∀ b ∈ X, r.signatureComparison.Settles (a,b) := by
  constructor
  · intro h a ha b hb
    obtain ⟨same, hs⟩ := h.total a ha b hb
    exact (Comparison.returns_iff_settles _).mp ⟨same, signatureMatches_iff.mp hs⟩
  · intro h
    refine ⟨fun a ha b hb => ?_, fun a _ same hs => ?_, fun a _ b _ same same' hs hs' => ?_,
      fun a _ b _ c _ same hs hs' hs'' => ?_⟩
    · obtain ⟨same, hs⟩ := (Comparison.returns_iff_settles _).mpr (h a ha b hb)
      exact ⟨same, signatureMatches_iff.mpr hs⟩
    · have hself : r.signatureComparison.Returns (a,a) true :=
        ⟨1, [], by simp [Comparison.answer, signatureComparison]⟩
      exact (signatureMatches_iff.mp hs).unique hself
    · cases same with
      | true => exact (signatureMatches_symm hs hs').symm
      | false =>
        cases same' with
        | true => exact signatureMatches_symm hs' hs
        | false => rfl
    · exact signatureMatches_trans hs hs' hs''

end TypeRegistry

theorem rings_zero : 0 < 4 := by decide
theorem rings_one : 1 < 4 := by decide
theorem rings_two : 2 < 4 := by decide
theorem rings_three : 3 < 4 := by decide

/-- `P1 = ^T1; T1 = procedure(p: P1)` and `P2 = ^T2; T2 = procedure(p: P2)`: node 0 is `^T1`, 1 the
name `T1`, 2 the procedural type and 3 the name `P1`, and 4 to 7 are the same for `P2`. -/
def procedureRings : TypeRegistry Unit where
  size := 8
  descriptors := 4
  node
    | 0 => .tyPointer (some 1)
    | 2 => .tyProcedural false [⟨.value, ["p"], some 3⟩] none false false
    | 4 => .tyPointer (some 5)
    | 6 => .tyProcedural false [⟨.value, ["p"], some 7⟩] none false false
    | _ => .tyName
  descriptor
    | 0 => some ⟨0, rings_zero⟩
    | 1 => some ⟨1, rings_one⟩
    | 2 => some ⟨1, rings_one⟩
    | 3 => some ⟨0, rings_zero⟩
    | 4 => some ⟨2, rings_two⟩
    | 5 => some ⟨3, rings_three⟩
    | 6 => some ⟨3, rings_three⟩
    | 7 => some ⟨2, rings_two⟩
  typeContext _ := none
  payload
    | 0 => some 0
    | 1 => some 2
    | 2 => some 4
    | 3 => some 6
  primitive _ := none
  enumMembers _ := none
  payload_bound := by decide
  metaclass_name t d _ h := by fin_cases d <;> cases h
  metaclass_primitive _ _ := rfl
  bounds_scoped := by decide

def ringName (t : Fin 8) : Option (Fin procedureRings.size) := some t

theorem procedureRings_asks :
    procedureRings.signatureComparison.Asks (ringName 3, ringName 7) (ringName 3, ringName 7) := by
  refine .within (r := (ringName 1, ringName 5)) (l := []) (m := []) nofun ⟨rfl, 1, rfl⟩ nofun ?_
  refine .afresh (l := [.test true, .within (none, none), .test true, .test true]) (m := []) ?_
    ⟨rfl, 1, rfl⟩ ?_
  · rintro (h | h) <;> cases h
  · have hnull (H : Set (Option (Fin procedureRings.size) × Option (Fin procedureRings.size))) :
        procedureRings.signatureComparison.AlikeUnder H (none, none) := ⟨∅, nofun, .inl rfl⟩
    simp [hnull]

/-- Matching `P1` with `P2` never returns. -/
theorem not_signatureMatches_rings :
    ¬ DecidesEquivalence procedureRings.SignatureMatches {ringName 3, ringName 7} := by
  intro h
  obtain ⟨same, hs⟩ := h.total (ringName 3) (.inl rfl) (ringName 7) (.inr rfl)
  have hsettles :=
    (Comparison.returns_iff_settles _).mp ⟨same, TypeRegistry.signatureMatches_iff.mp hs⟩
  exact (hsettles _ .refl).2 (.single procedureRings_asks)

end Tp2cc
