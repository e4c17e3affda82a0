import Tp2cc.Stmts.ForIn
import Mathlib.Data.List.Sort
import Mathlib.Logic.Equiv.Nat

set_option autoImplicit false

namespace Tp2cc.ForIn
open Machine Rt

def Increasing (vs : List Int) (s : Set Int) : Prop := vs.Pairwise (· < ·) ∧ ∀ v, v ∈ vs ↔ v ∈ s

section
variable {target : TargetInfo} {σ : Type}

/-- The container and its elements, by index or ordinal, with the expression evaluated once. -/
def elements : Enumeration target σ
  | _, .string expr length, t, h, vs, t' => expr.eval t = some (h,t') ∧
      Increasing vs {v | 1 ≤ v ∧ v ≤ (length h t'.state).count}
  | _, .fixedArray expr index _ _, t, h, vs, t' => expr.eval t = some (h,t') ∧
      Increasing vs {v | index.low target ≤ v ∧ v ≤ index.high target}
  | _, .countedArray expr length, t, h, vs, t' => expr.eval t = some (h,t') ∧
      Increasing vs {v | 0 ≤ v ∧ v < (length h t'.state).count}
  | _, .set _ expr, t, _, vs, t' => ∃ s, expr.eval t = some (s,t') ∧ Increasing vs s.ordinals
  | _, .literal elements _ _, t, _, vs, t' => ∃ values,
      literalValues (elements.map LiteralElement.element) t = some (values,t') ∧
        Increasing vs (listedOrdinals 0 255 values)

/-- The emitted loop has the runs of a loop that takes the elements one by one, whatever its body
and the loops around it are. -/
def LoopsOver {H : Type} (collection : Collection target σ H) (t : Trace σ) : Prop :=
  ∀ (assign : H → Int → Trace σ → Trace σ) (body : Stmt target σ) (labels : List Nat) (n : Nat)
    (e : Ending LoopLabel) (t' : Trace σ), (∀ k ∈ labels, k ≤ n) →
      ((emitStmt (.forIn collection assign body) labels n).1.Runs none t e t' ↔
        e = .normal ∧ ∃ h vs t₁ stop, elements collection t h vs t₁ ∧
          Visits (loopVisit (body.Runs emittedValues) (assign h)) vs t₁ stop t')

/-- The numbers from one bound to the other, past the greatest number of the type if need be. -/
def Between {r : IntType} (first last : Word r) (v : Int) : Prop :=
  if first.val ≤ last.val then first.val ≤ v ∧ v ≤ last.val
  else (first.val ≤ v ∧ v ≤ r.hi) ∨ (r.lo ≤ v ∧ v ≤ last.val)

/-- The elements are in the set and between the bounds of its type, no other number there becomes an
ordinal of the set on its way into it, and bounds that are inverted have no elements on one side. -/
structure SetWalked (type : SetType target) (set elements : Set Int) : Prop where
  found : ∀ v ∈ elements, Between (type.elem.convert type.low) (type.elem.convert type.high) v ∧ v ∈ set
  only : ∀ v, Between (type.elem.convert type.low) (type.elem.convert type.high) v →
    IntType.int.reduce v ∈ set → v ∈ elements
  inOrder : (type.elem.convert type.high).val < (type.elem.convert type.low).val →
    (∀ v ∈ elements, v ≤ (type.elem.convert type.high).val) ∨
      ∀ v ∈ elements, (type.elem.convert type.low).val ≤ v

def reachedOrdinals (E : ElemType) (prim : Option IntType) (values : List (LiteralElem LiteralNumber)) :
    Set Int := {w | Ordinal w ∧ ∃ x ∈ values, (x.emitted prim).Reaches E w}

/-- No entered range evaluates its bound again or ends at the greatest `int64_t`, and the set of the
literal is walked for the listed ordinals. -/
structure LiteralWalked (elements : List (LiteralElem (ElementOperand σ))) (type : SetType target)
    (values : List (LiteralElem LiteralNumber)) : Prop where
  once : BoundsOnce (type.element.integerPrimitive target) elements values
  ends : ∀ x ∈ values, (x.emitted (type.element.integerPrimitive target)).Ends
  walked : SetWalked type
    (reachedOrdinals type.elem (type.element.integerPrimitive target) values)
    (listedOrdinals 0 255 values)

/-- When the loop over a collection does what it should. -/
def Collection.Kept {H : Type} : Collection target σ H → Trace σ → Prop
  | .set type expr, t => ∀ s t', expr.eval t = some (s,t') → SetWalked type s.ordinals s.ordinals
  | .literal elements type _, t => ∀ values t',
      literalValues (elements.map LiteralElement.element) t = some (values,t') →
        LiteralWalked (elements.map LiteralElement.element) type values
  | _, _ => True

/-- The operands of a literal, each evaluated once, come to an end. -/
def Collection.Ends {H : Type} : Collection target σ H → Trace σ → Prop
  | .literal elements _ _, t => ∃ r, literalValues (elements.map LiteralElement.element) t = some r
  | _, _ => True

end

theorem Increasing.unique {vs ws : List Int} {s : Set Int} (hv : Increasing vs s)
    (hw : Increasing ws s) : vs = ws :=
  hv.1.eq_of_mem_iff hw.1 fun v => (hv.2 v).trans (hw.2 v).symm

theorem increasing_pascalRange (a b : Int) :
    Increasing (pascalRange false a b) {v | a ≤ v ∧ v ≤ b} := by
  refine ⟨?_, fun v => mem_pascalRange⟩
  rw [pascalRange, List.pairwise_map]
  refine List.Pairwise.imp ?_ List.pairwise_lt_range
  intro i j hij
  simp only [direction, Bool.false_eq_true, if_false]
  omega

theorem exists_increasing {s : Set Int} (h : ∀ v ∈ s, Ordinal v) : ∃ vs, Increasing vs s := by
  classical
  have hall := increasing_pascalRange 0 255
  refine ⟨(pascalRange false 0 255).filter (· ∈ s), hall.1.filter _, ?_⟩
  intro v
  rw [List.mem_filter, hall.2, decide_eq_true_iff]
  constructor
  · exact And.right
  · intro hv
    obtain ⟨h₁, h₂⟩ := h v hv
    exact ⟨⟨h₁, by omega⟩, hv⟩

section
variable {r : IntType} {first last : Word r}

theorem mem_itemRange {v : Int} : v ∈ itemRange first last ↔ Between first last v := by
  unfold itemRange Between
  split
  · exact mem_pascalRange
  · rw [List.mem_append, mem_pascalRange, mem_pascalRange]

theorem between_holds {v : Int} (h : Between first last v) : r.Holds v :=
  itemRange_holds (mem_itemRange.mpr h)

theorem itemRange_pairwise {p : Int → Bool} :
    ((itemRange first last).filter p).Pairwise (· < ·) ↔
      (last.val < first.val → ∀ v w, Between first last v → p v → Between first last w → p w →
        first.val ≤ v → w ≤ last.val → False) := by
  have hsorted (a b : Int) := (increasing_pascalRange a b).1
  unfold itemRange
  split
  · rename_i h
    constructor
    · intro _ hlt
      omega
    · intro _
      exact (hsorted _ _).filter p
  · rename_i h
    rw [List.filter_append, List.pairwise_append]
    simp only [Between, h, if_false, List.mem_filter, mem_pascalRange]
    constructor
    · rintro ⟨_, _, hcross⟩ _ v w hv hpv hw hpw hfirst hlast
      have hhi : v ≤ r.hi := by have := last.mem.2; omega
      have hlo : r.lo ≤ w := by have := first.mem.1; omega
      have := hcross v ⟨⟨hfirst, hhi⟩, hpv⟩ w ⟨⟨hlo, hlast⟩, hpw⟩
      omega
    · intro hcross
      refine ⟨(hsorted _ _).filter p, (hsorted _ _).filter p, ?_⟩
      intro v ⟨hv, hpv⟩ w ⟨hw, hpw⟩
      exact (hcross (by omega) v w (.inl hv) hpv (.inr hw) hpw hv.1 hw.2).elim

end

section
variable {target : TargetInfo} {type : SetType target} {σ : Type}

theorem idx_ofInt {E : ElemType} {v : Int} (h : E.carrier.Holds v) :
    Tp2ccSet.idx E (.ofInt _ v) = IntType.int.reduce v := by
  rw [Word.ofInt_of_holds h]
  cases E with
  | integer t => exact int_reduce_int64 v
  | char => rfl
  | bool => exact int_reduce_int64 v

theorem mem_visitedOrdinals {s : Tp2ccSet type.elem} {v : Int} : v ∈ visitedOrdinals type s ↔
    Between (type.elem.convert type.low) (type.elem.convert type.high) v ∧
      IntType.int.reduce v ∈ s.ordinals := by
  rw [visitedOrdinals, List.mem_filter, mem_itemRange]
  apply and_congr_right
  intro hv
  rw [Tp2ccSet.contains_iff, idx_ofInt (between_holds hv)]

theorem increasing_visited_iff {s : Tp2ccSet type.elem} {elements : Set Int}
    (h : ∀ v ∈ elements, Ordinal v) :
    Increasing (visitedOrdinals type s) elements ↔ SetWalked type s.ordinals elements := by
  constructor
  · rintro ⟨hsorted, hmem⟩
    have hfound (v : Int) (hv : v ∈ elements) := mem_visitedOrdinals.mp ((hmem v).mpr hv)
    refine ⟨?_, ?_, ?_⟩
    · intro v hv
      obtain ⟨hbetween, hin⟩ := hfound v hv
      rw [(h v hv).int_reduce] at hin
      exact ⟨hbetween, hin⟩
    · intro v hbetween hin
      exact (hmem v).mp (mem_visitedOrdinals.mpr ⟨hbetween, hin⟩)
    · intro hlt
      by_contra hsides
      rw [not_or, not_forall, not_forall] at hsides
      obtain ⟨⟨v, hv⟩, w, hw⟩ := hsides
      rw [Classical.not_imp] at hv hw
      have hle : ¬(type.elem.convert type.low).val ≤ (type.elem.convert type.high).val := by omega
      have hcross := itemRange_pairwise.mp hsorted hlt v w (hfound v hv.1).1
      have hin (u : Int) (hu : u ∈ elements) : s.contains (.ofInt _ u) = true := by
        rw [Tp2ccSet.contains_iff, idx_ofInt (between_holds (hfound u hu).1)]
        exact (hfound u hu).2
      have hv' := (hfound v hv.1).1
      have hw' := (hfound w hw.1).1
      simp only [Between, hle, if_false] at hv' hw'
      exact hcross (hin v hv.1) (hfound w hw.1).1 (hin w hw.1) (by omega) (by omega)
  · intro hwalked
    have hmem (v : Int) : v ∈ visitedOrdinals type s ↔ v ∈ elements := by
      rw [mem_visitedOrdinals]
      constructor
      · rintro ⟨hbetween, hin⟩
        exact hwalked.only v hbetween hin
      · intro hv
        obtain ⟨hbetween, hin⟩ := hwalked.found v hv
        exact ⟨hbetween, by rwa [(h v hv).int_reduce]⟩
    refine ⟨itemRange_pairwise.mpr ?_, hmem⟩
    intro hlt v w hv hpv hw hpw hfirst hlast
    have hin (u : Int) (hu : Between (type.elem.convert type.low) (type.elem.convert type.high) u)
        (hpu : s.contains (.ofInt _ u) = true) : u ∈ elements :=
      (hmem u).mp (List.mem_filter.mpr ⟨mem_itemRange.mpr hu, hpu⟩)
    cases hwalked.inOrder hlt with
    | inl hside =>
      have := hside v (hin v hv hpv)
      omega
    | inr hside =>
      have := hside w (hin w hw hpw)
      omega

theorem literal_runs {elements : List (LiteralElem (ElementOperand σ))} {prim : Option IntType}
    {values : List (LiteralElem LiteralNumber)} {E : ElemType} {s : Tp2ccSet E} {t t' t'' : Trace σ}
    (h : literalValues elements t = some (values,t')) (honce : BoundsOnce prim elements values) :
    (setLiteralToCxx prim elements).Runs t (s,t'') ↔
      t'' = t' ∧ literalSet E (values.map (·.emitted prim)) = some s :=
  (setText_runs _).trans (bodyRuns_once (textValues_toCxx prim h) honce)

end

section
variable {target : TargetInfo} {σ : Type} {t t' : Trace σ} {vs : List Int}

theorem visits_empty {values : Enumeration target σ} {assign : Int → Trace σ → Trace σ}
    {stop : Bool} : Visits (loopVisit ((Stmt.empty : Stmt target σ).Runs values) assign) vs t stop t' ↔
      stop = false ∧ t' = vs.foldl (fun t v => assign v t) t := by
  induction vs generalizing t with
  | nil => exact Iff.rfl
  | cons v vs ih =>
    rw [Visits, List.foldl_cons]
    constructor
    · rintro ⟨stop₁, t₁, ⟨f, ⟨hf, ht⟩, hstop⟩, hrest⟩
      rw [hstop, hf, ht] at hrest
      exact ih.mp hrest
    · intro h
      exact ⟨false, assign v t, ⟨.normal, ⟨rfl, rfl⟩, rfl⟩, ih.mpr h⟩

def note (v : Int) (t : Trace σ) : Trace σ := ⟨t.state, t.log ++ [Equiv.intEquivNat v]⟩

theorem foldl_note : vs.foldl (fun t v => note v t) t =
    ⟨t.state, t.log ++ vs.map Equiv.intEquivNat⟩ := by
  induction vs generalizing t with
  | nil => simp
  | cons v vs ih => rw [List.foldl_cons, ih, note, List.append_assoc, List.singleton_append, List.map_cons]

/-- Loops that have the same runs with an empty body take the same elements. -/
theorem values_of_runs {emitted listed : List Int → Trace σ → Prop}
    (hlisted : ∀ vs t vs' t', listed vs t → listed vs' t' → t = t')
    (h : ∀ (assign : Int → Trace σ → Trace σ) (t' : Trace σ),
      (∃ vs t₁, emitted vs t₁ ∧ t' = vs.foldl (fun t v => assign v t) t₁) ↔
        ∃ vs t₁, listed vs t₁ ∧ t' = vs.foldl (fun t v => assign v t) t₁)
    (hvs : listed vs t) : emitted vs t := by
  have hsame (us : List Int) (t : Trace σ) : us.foldl (fun t _ => t) t = t := by
    induction us with
    | nil => rfl
    | cons u us ih => exact ih
  have hend (us : List Int) (t₁ : Trace σ) (hus : emitted us t₁) : t₁ = t := by
    obtain ⟨ws, t₂, hws, ht⟩ := (h (fun _ t => t) t₁).mp ⟨us, t₁, hus, (hsame us t₁).symm⟩
    rw [ht, hsame]
    exact hlisted _ _ _ _ hws hvs
  obtain ⟨us, t₁, hus, ht⟩ := (h note _).mpr ⟨vs, t, hvs, rfl⟩
  cases hend us t₁ hus
  rw [foldl_note, foldl_note] at ht
  have hmap := List.append_cancel_left (congrArg Trace.log ht)
  rwa [List.map_injective_iff.mpr Equiv.intEquivNat.injective hmap]

end

section
variable {target : TargetInfo} {σ H : Type} {collection : Collection target σ H} {t : Trace σ}

theorem forIn_runs (assign : H → Int → Trace σ → Trace σ) (body : Stmt target σ) {labels : List Nat}
    {n : Nat} (hlabels : ∀ k ∈ labels, k ≤ n) (e : Ending LoopLabel) (t' : Trace σ) :
    (emitStmt (.forIn collection assign body) labels n).1.Runs none t e t' ↔
      e = .normal ∧ ∃ h vs t₁ stop, emittedValues collection t h vs t₁ ∧
        Visits (loopVisit (body.Runs emittedValues) (assign h)) vs t₁ stop t' := by
  rw [((emitStmt_emits (.forIn collection assign body) labels n hlabels).1.runs ..)]
  constructor
  · rintro ⟨f, ⟨hf, h⟩, he⟩
    exact ⟨by rw [he, hf, flowEnding], h⟩
  · rintro ⟨he, h⟩
    exact ⟨.normal, ⟨rfl, h⟩, he⟩

theorem loopsOver_of_values
    (h : ∀ h vs t₁, emittedValues collection t h vs t₁ ↔ elements collection t h vs t₁) :
    LoopsOver collection t := by
  intro assign body labels n e t' hlabels
  rw [forIn_runs assign body hlabels]
  simp only [h]

theorem values_of_loopsOver {collection : Collection target σ Unit} {vs : List Int} {t₁ : Trace σ}
    (hdet : ∀ vs t₁ vs' t₂, elements collection t () vs t₁ → elements collection t () vs' t₂ → t₁ = t₂)
    (h : LoopsOver collection t) (hvs : elements collection t () vs t₁) :
    emittedValues collection t () vs t₁ := by
  refine values_of_runs hdet ?_ hvs
  intro assign t'
  have hruns := h (fun _ => assign) .empty [] 0 .normal t' (fun k hk => absurd hk List.not_mem_nil)
  rw [forIn_runs _ _ (fun k hk => absurd hk List.not_mem_nil)] at hruns
  have hunit {p : Unit → Prop} : (∃ h, p h) ↔ p () := by
    constructor
    · rintro ⟨_, hp⟩
      exact hp
    · intro hp
      exact ⟨(), hp⟩
  simpa [visits_empty, hunit] using hruns

theorem eq_pascalRange_iff {vs : List Int} {a b : Int} :
    vs = pascalRange false a b ↔ Increasing vs {v | a ≤ v ∧ v ≤ b} := by
  constructor
  · intro h
    rw [h]
    exact increasing_pascalRange a b
  · intro h
    exact h.unique (increasing_pascalRange a b)

theorem set_loopsOver_iff {type : SetType target} {expr : Effectful σ (Tp2ccSet type.elem)} :
    LoopsOver (.set type expr) t ↔ (Collection.set type expr).Kept t := by
  have hordinal (s : Tp2ccSet type.elem) : ∀ v ∈ s.ordinals, Ordinal v := fun v hv => hv.1
  constructor
  · intro h s t₁ heval
    obtain ⟨vs, hvs⟩ := exists_increasing (hordinal s)
    have hdet (vs : List Int) (t₁ : Trace σ) (vs' : List Int) (t₂ : Trace σ)
        (h₁ : elements (.set type expr) t () vs t₁) (h₂ : elements (.set type expr) t () vs' t₂) :
        t₁ = t₂ := by
      obtain ⟨s₁, h₁, -⟩ := h₁
      obtain ⟨s₂, h₂, -⟩ := h₂
      cases h₁.symm.trans h₂
      rfl
    obtain ⟨s', heval', hvisited⟩ := values_of_loopsOver hdet h ⟨s, heval, hvs⟩
    cases heval.symm.trans heval'
    rw [hvisited] at hvs
    exact (increasing_visited_iff (hordinal s)).mp hvs
  · intro h
    apply loopsOver_of_values
    intro _ vs t₁
    apply exists_congr
    intro s
    apply and_congr_right
    intro heval
    have hvisited := (increasing_visited_iff (hordinal s)).mpr (h s t₁ heval)
    constructor
    · intro hvs
      rwa [hvs]
    · intro hvs
      exact hvs.unique hvisited

theorem literal_loopsOver_iff {elems : List (LiteralElement σ)} {type : SetType target}
    {deduced : deduceSetLiteralType target elems = some type} {t₁ : Trace σ}
    {values : List (LiteralElem LiteralNumber)}
    (hvalues : literalValues (elems.map LiteralElement.element) t = some (values,t₁)) :
    LoopsOver (.literal elems type deduced) t ↔
      LiteralWalked (elems.map LiteralElement.element) type values := by
  obtain ⟨prim, hprim⟩ : ∃ prim, prim = type.element.integerPrimitive target := ⟨_, rfl⟩
  have hordinal : ∀ v ∈ listedOrdinals 0 255 values, Ordinal v := fun v hv => hv.1
  have hreached {s : Tp2ccSet type.elem}
      (hs : literalSet type.elem (values.map (·.emitted prim)) = some s) :
      (∀ x ∈ values, (x.emitted prim).Ends) ∧
        s.ordinals = reachedOrdinals type.elem prim values := by
    obtain ⟨hends, hmem⟩ := addLiterals_iff hs
    refine ⟨List.forall_mem_map.mp hends, ?_⟩
    ext w
    rw [hmem w, Tp2ccSet.ordinals_empty, Set.mem_empty_iff_false, false_or]
    simp only [List.mem_map, exists_exists_and_eq_and]
    exact Iff.rfl
  subst hprim
  constructor
  · intro h
    obtain ⟨vs, hvs⟩ := exists_increasing hordinal
    have hdet (vs : List Int) (t₁ : Trace σ) (vs' : List Int) (t₂ : Trace σ)
        (h₁ : elements (.literal elems type deduced) t () vs t₁)
        (h₂ : elements (.literal elems type deduced) t () vs' t₂) : t₁ = t₂ := by
      obtain ⟨_, h₁, -⟩ := h₁
      obtain ⟨_, h₂, -⟩ := h₂
      cases h₁.symm.trans h₂
      rfl
    obtain ⟨s, hruns, hvisited⟩ := values_of_loopsOver hdet h ⟨values, hvalues, hvs⟩
    have hbody := (setText_runs _).mp hruns
    have honce : BoundsOnce (type.element.integerPrimitive target) _ values :=
      not_reruns_of_bodyRuns (textValues_toCxx _ hvalues) hbody
    obtain ⟨hends, hs⟩ := hreached ((literal_runs hvalues honce).mp hruns).2
    rw [hvisited] at hvs
    have hwalked := (increasing_visited_iff hordinal).mp hvs
    rw [hs] at hwalked
    exact ⟨honce, hends, hwalked⟩
  · intro h
    obtain ⟨s, hs⟩ := addLiterals_exists (List.forall_mem_map.mpr h.ends) (.empty type.elem)
    have hvisited : Increasing (visitedOrdinals type s) (listedOrdinals 0 255 values) :=
      (increasing_visited_iff hordinal).mpr (by rw [(hreached hs).2]; exact h.walked)
    apply loopsOver_of_values
    intro _ vs t₂
    constructor
    · rintro ⟨s', hruns, hvs⟩
      obtain ⟨ht, hs'⟩ := (literal_runs hvalues h.once).mp hruns
      cases hs.symm.trans hs'
      rw [hvs, ht]
      exact ⟨values, hvalues, hvisited⟩
    · rintro ⟨values', hvalues', hvs⟩
      cases hvalues.symm.trans hvalues'
      exact ⟨s, (literal_runs hvalues h.once).mpr ⟨rfl, hs⟩, hvs.unique hvisited⟩

theorem convert_val {E : ElemType} {v : Int} (h : E.carrier.Holds v) : (E.convert v).val = v := by
  cases E with
  | integer r => exact IntType.reduce_of_holds h
  | char => exact IntType.reduce_of_holds h
  | bool =>
    obtain ⟨h₁, h₂⟩ := h
    simp only [ElemType.carrier, IntType.lo, IntType.hi, Bool.false_eq_true, if_false] at h₁ h₂
    have hcases : v = 0 ∨ v = 1 := by omega
    cases hcases with
    | inl hv => rw [hv]; rfl
    | inr hv => rw [hv]; rfl

theorem eq_of_int_reduce {c : IntType} (hbits : c.bits ≤ 32) {v w : Int} (hv : c.Holds v)
    (hw : c.Holds w) (h : IntType.int.reduce v = w) : v = w := by
  have hd : (2 : Int)^c.bits ∣ 2^32 := pow_dvd_pow 2 hbits
  have hmod : w % 2^32 = v % 2^32 := h ▸ IntType.int.reduce_emod v
  apply IntType.eq_of_emod hv hw
  rw [← Int.emod_emod_of_dvd v hd, ← hmod, Int.emod_emod_of_dvd _ hd]

theorem setWalked_of_domain {type : SetType target} {set : Set Int}
    (hbits : type.elem.carrier.bits ≤ 32) (hlow : type.elem.carrier.Holds type.low)
    (hhigh : type.elem.carrier.Holds type.high) (h : ∀ v ∈ set, type.low ≤ v ∧ v ≤ type.high) :
    SetWalked type set set := by
  have hbetween {v : Int} (h : type.low ≤ type.high) :
      Between (type.elem.convert type.low) (type.elem.convert type.high) v ↔
        type.low ≤ v ∧ v ≤ type.high := by
    rw [Between, convert_val hlow, convert_val hhigh, if_pos h]
  refine ⟨?_, ?_, ?_⟩
  · intro v hv
    obtain ⟨h₁, h₂⟩ := h v hv
    exact ⟨(hbetween (h₁.trans h₂)).mpr ⟨h₁, h₂⟩, hv⟩
  · intro v hv hin
    obtain ⟨h₁, h₂⟩ := h _ hin
    obtain ⟨h₃, h₄⟩ := (hbetween (h₁.trans h₂)).mp hv
    have hv' : v = IntType.int.reduce v := eq_of_int_reduce hbits
      ⟨hlow.1.trans h₃, h₄.trans hhigh.2⟩ ⟨hlow.1.trans h₁, h₂.trans hhigh.2⟩ rfl
    rwa [hv']
  · intro hlt
    rw [convert_val hlow, convert_val hhigh] at hlt
    refine .inl fun v hv => ?_
    obtain ⟨h₁, h₂⟩ := h v hv
    omega

theorem declared_kept {element : OrdinalType} {storage : IntegerPrimitive}
    {stored : element.Stored target storage}
    {expr : Effectful σ (Tp2ccSet (SetType.declared element storage stored).elem)}
    (hbits : (element.elemType target storage).carrier.bits ≤ 32)
    (h : ∀ s t', expr.eval t = some (s,t') → ∀ v ∈ s.ordinals,
      element.low target ≤ v ∧ v ≤ element.high target) :
    (Collection.set (SetType.declared element storage stored) expr).Kept t := by
  intro s t' heval
  exact setWalked_of_domain hbits (stored.elemType_holds ⟨le_refl _, stored.ordered⟩)
    (stored.elemType_holds ⟨stored.ordered, le_refl _⟩) (h s t' heval)

theorem literalWalked_of_within {elems : List (LiteralElem (ElementOperand σ))} {type : SetType target}
    {values : List (LiteralElem LiteralNumber)} (hbits : type.elem.carrier.bits ≤ 32)
    (hlow : type.elem.carrier.Holds type.low) (hhigh : type.elem.carrier.Holds type.high)
    (honce : BoundsOnce (type.element.integerPrimitive target) elems values)
    (hwithin : ∀ x ∈ values, x.listed.Within type.low type.high) :
    LiteralWalked elems type values := by
  have hkept := literalKept_of_within hbits hlow hhigh
    (fun _ => type.stored.integerPrimitive_eq) hwithin
  have hdomain : ∀ v ∈ listedOrdinals 0 255 values, type.low ≤ v ∧ v ≤ type.high := by
    intro v ⟨_, _, x, hx, hhas⟩
    exact within_domain (hwithin x hx) hhas
  have hreached : reachedOrdinals type.elem (type.element.integerPrimitive target) values =
      listedOrdinals 0 255 values := by
    ext w
    apply and_congr_right
    intro hw
    rw [hkept.same w hw]
    constructor
    · rintro ⟨_, hhas⟩
      exact ⟨⟨hw.1, by have := hw.2; omega⟩, hhas⟩
    · intro hlisted
      exact ⟨hdomain w ⟨hw, hlisted⟩, hlisted.2⟩
  refine ⟨honce, hkept.ends, ?_⟩
  rw [hreached]
  exact setWalked_of_domain hbits hlow hhigh hdomain

theorem deduced_bounds {elems : List (LiteralElement σ)} {type : SetType target}
    {summary : SetLiteralOrdinalSummary} (deduced : deduceSetLiteralType target elems = some type)
    (h : summarizeSetLiteralOrdinals none (elems.flatMap LiteralElement.operands) = some summary) :
    type.low = summary.low ∧ type.high = summary.high := by
  rw [deduceSetLiteralType] at deduced
  simp only [h] at deduced
  split at deduced
  · cases deduced
  · unfold synthesizeSetType at deduced
    split at deduced
    · cases deduced
      exact ⟨rfl, rfl⟩
    · cases deduced

theorem operand_of_constant {x : LiteralOperand σ} {v : Int} (hv : x.constant = some v) :
    x.operand = .number v ∨ x.operand = .other (.const v) := by
  unfold LiteralOperand.operand
  cases hcode : x.keepsCode with
  | false => simp only [hv, true_or]
  | true => simp only [hv, x.folded v hv, or_true]

theorem constant_eval {x : LiteralOperand σ} {v : Int} (hv : x.constant = some v) {n : LiteralNumber}
    {t' : Trace σ} (h : x.operand.eval t = some (n,t')) (prim : Option IntType) :
    n.value = v ∧ ∃ w, x.operand.constValueToCxx prim = .const w := by
  cases operand_of_constant hv with
  | inl hx =>
    rw [hx] at h ⊢
    cases h
    exact ⟨rfl, _, rfl⟩
  | inr hx =>
    rw [hx] at h ⊢
    cases h
    exact ⟨rfl, v, rfl⟩

theorem constants_within {elems : List (LiteralElement σ)} {low high : Int}
    (h : ∀ x ∈ elems.flatMap LiteralElement.operands,
      ∃ v, x.constant = some v ∧ low ≤ v ∧ v ≤ high) {values : List (LiteralElem LiteralNumber)}
    {t' : Trace σ} (prim : Option IntType)
    (hvalues : literalValues (elems.map LiteralElement.element) t = some (values,t')) :
    BoundsOnce prim (elems.map LiteralElement.element) values ∧
      ∀ x ∈ values, x.listed.Within low high := by
  induction elems generalizing t values with
  | nil =>
    cases hvalues
    exact ⟨fun p hp => absurd hp List.not_mem_nil, fun x hx => absurd hx List.not_mem_nil⟩
  | cons x xs ih =>
    obtain ⟨value, rest, t₁, hx, hxs, rfl⟩ := evalElements_cons hvalues
    rw [List.flatMap_cons] at h
    obtain ⟨honce, hwithin⟩ := ih (fun y hy => h y (List.mem_append_right _ hy)) hxs
    rw [BoundsOnce, List.map_cons, List.map_cons, List.map_cons, List.zip_cons_cons,
      List.forall_mem_cons, List.forall_mem_cons]
    suffices hone : ¬((LiteralElement.element x).toCxx prim).Reruns (value.emitted prim) ∧
        value.listed.Within low high from ⟨⟨hone.1, honce⟩, hone.2, hwithin⟩
    cases x with
    | value x =>
      obtain ⟨v, hv, hbounds⟩ := h x (by simp [LiteralElement.operands])
      obtain ⟨⟨n, t₂⟩, hn, hx⟩ := Option.bind_eq_some_iff.mp hx
      cases hx
      cases (constant_eval hv hn prim).1
      exact ⟨id, hbounds⟩
    | range lo hi =>
      obtain ⟨l, hl, hlow⟩ := h lo (by simp [LiteralElement.operands])
      obtain ⟨u, hu, hhigh⟩ := h hi (by simp [LiteralElement.operands])
      obtain ⟨⟨m, t₂⟩, hm, hx⟩ := Option.bind_eq_some_iff.mp hx
      obtain ⟨⟨n, t₃⟩, hn, hx⟩ := Option.bind_eq_some_iff.mp hx
      cases hx
      cases (constant_eval hl hm prim).1
      obtain ⟨hvalue, w, htext⟩ := constant_eval hu hn prim
      cases hvalue
      refine ⟨?_, hlow, hhigh⟩
      simp only [LiteralElement.element, LiteralElem.toCxx, LiteralElem.map, htext]
      exact id

/-- A literal of constants of a type of up to 32 bits, inverted ranges included. -/
theorem constants_kept {elems : List (LiteralElement σ)} {type : SetType target}
    {deduced : deduceSetLiteralType target elems = some type} {summary : SetLiteralOrdinalSummary}
    (h : summarizeSetLiteralOrdinals none (elems.flatMap LiteralElement.operands) = some summary)
    (hbits : type.elem.carrier.bits ≤ 32) (hlow : type.elem.carrier.Holds type.low)
    (hhigh : type.elem.carrier.Holds type.high) : (Collection.literal elems type deduced).Kept t := by
  intro values t' hvalues
  obtain ⟨hl, hu⟩ := deduced_bounds deduced h
  have hconstants := (summarize_bounds h).2
  rw [← hl, ← hu] at hconstants
  obtain ⟨honce, hwithin⟩ := constants_within hconstants _ hvalues
  exact literalWalked_of_within hbits hlow hhigh honce hwithin

end

abbrev target64 : TargetInfo := ⟨64, TargetInfo.sixtyFour⟩

theorem ten_contained : SubrangeBase.integer.Contains 1 ∧ SubrangeBase.integer.Contains 10 :=
  ⟨⟨by decide, by decide⟩, by decide, by decide⟩

/-- `a` and `b`, of types `1..10` and `byte`. -/
def tenOperand : LiteralOperand (Int × Int) :=
  ⟨.subrange .integer 1 10 (by decide) ten_contained, "",
    .code 0 fun s => some (s.1,s), none, false, nofun⟩

theorem byte_family : IntegerPrimitive.family ⟨.byte, PrimitiveKind.byte_integer⟩ = .integer := rfl
theorem byte_notCurrency : PrimitiveKind.byte ≠ .currency := by decide

def byteOperand : LiteralOperand (Int × Int) :=
  ⟨.integer ⟨.byte, PrimitiveKind.byte_integer⟩ byte_family byte_notCurrency, "",
    .code 1 fun s => some (s.2,s), none, false, nofun⟩

def tenSet : SetType target64 :=
  ⟨tenOperand.type, ⟨.byte, PrimitiveKind.byte_integer⟩, ⟨rfl, by decide, by decide, by decide⟩, 1, 10⟩

def tenByte : Collection target64 (Int × Int) Unit :=
  .literal [.value tenOperand, .value byteOperand] tenSet rfl

end Tp2cc.ForIn
