import Tp2cc.Machine.Effect
import Tp2cc.Runtime.SetRun

/-! The C++ expression of a set literal, whose elements and bounds may have effects. -/
set_option autoImplicit false

namespace Tp2cc
open Machine Rt

variable {σ : Type} {E : ElemType}

/-- An operand of a set literal, which counts as its ordinal, whatever type it has: a constant that
`maybe_convert_const_int_expr` folds, or any other expression. -/
inductive ElementOperand (σ : Type) where
  | number (v : Int)
  | other (e : Effectful σ Int)

/-- `const_value_to_cxx` for an element type, where `prim` is the integer primitive it is, if any. -/
def ElementOperand.constValueToCxx (prim : Option IntType) : ElementOperand σ → Effectful σ Int
  | .number v => .const (LiteralNumber.emitted prim ⟨v, true⟩)
  | .other e => e

def ElementOperand.eval : ElementOperand σ → Trace σ → Option (LiteralNumber × Trace σ)
  | .number v, t => some (⟨v, true⟩,t)
  | .other e, t => (e.eval t).map fun p => (⟨p.1, false⟩,p.2)

def Rt.LiteralElem.toCxx (prim : Option IntType) (x : LiteralElem (ElementOperand σ)) :
    LiteralElem (Effectful σ Int) := x.map (·.constValueToCxx prim)

def Rt.LiteralElem.isRange {α : Type} : LiteralElem α → Bool
  | .value _ => false
  | .range _ _ => true

inductive SetStatement (σ : Type) where
  | add (e : Effectful σ Int)
  | loop (lo hi : Effectful σ Int)

inductive SetText (σ : Type) where
  | empty
  | fromList (elements : List (Effectful σ Int))
  | lambda (body : List (SetStatement σ))

def Rt.LiteralElem.statement : LiteralElem (Effectful σ Int) → SetStatement σ
  | .value e => .add e
  | .range lo hi => .loop lo hi

def Rt.LiteralElem.operand? : LiteralElem (Effectful σ Int) → Option (Effectful σ Int)
  | .value e => some e
  | .range _ _ => none

def setText (elements : List (LiteralElem (Effectful σ Int))) : SetText σ :=
  if elements.isEmpty then .empty
  else if elements.any (·.isRange) then .lambda (elements.map (·.statement))
  else .fromList (elements.filterMap (·.operand?))

def setLiteralToCxx (prim : Option IntType) (elements : List (LiteralElem (ElementOperand σ))) :
    SetText σ := setText (elements.map (·.toCxx prim))

abbrev Building (σ : Type) (E : ElemType) := Tp2ccSet E × Trace σ

/-- The loop of a range from the counter on: the bound is evaluated in each test, and the counter
does not step behind the greatest `int64_t`. -/
inductive LoopRuns (hi : Effectful σ Int) : Int → Building σ E → Building σ E → Prop
  | exit {v h : Int} {s : Tp2ccSet E} {t t' : Trace σ} (hhi : hi.eval t = some (h,t'))
      (hv : ¬v ≤ Rt.cxxInt64.reduce h) : LoopRuns hi v (s,t) (s,t')
  | round {v h : Int} {s : Tp2ccSet E} {t t' : Trace σ} {r : Building σ E}
      (hhi : hi.eval t = some (h,t')) (hv : v ≤ Rt.cxxInt64.reduce h) (hmax : v ≠ Rt.cxxInt64.hi)
      (hrest : LoopRuns hi (v+1) (s.add (E.convert v),t') r) : LoopRuns hi v (s,t) r

inductive StatementRuns : SetStatement σ → Building σ E → Building σ E → Prop
  | add {e : Effectful σ Int} {s : Tp2ccSet E} {t t' : Trace σ} {v : Int}
      (he : e.eval t = some (v,t')) : StatementRuns (.add e) (s,t) (s.add (E.convert v),t')
  | loop {lo hi : Effectful σ Int} {s : Tp2ccSet E} {t t' : Trace σ} {l : Int}
      {r : Building σ E} (hlo : lo.eval t = some (l,t'))
      (hloop : LoopRuns hi (Rt.cxxInt64.reduce l) (s,t') r) :
      StatementRuns (.loop lo hi) (s,t) r

inductive BodyRuns : List (SetStatement σ) → Building σ E → Building σ E → Prop
  | nil {b : Building σ E} : BodyRuns [] b b
  | cons {stmt : SetStatement σ} {body : List (SetStatement σ)} {b b' b'' : Building σ E}
      (hstmt : StatementRuns stmt b b') (hbody : BodyRuns body b' b'') :
      BodyRuns (stmt :: body) b b''

/-- A run of the expression to its end. -/
def SetText.Runs (t : Trace σ) : SetText σ → Building σ E → Prop
  | .empty, r => r = (.empty E,t)
  | .fromList elements, r => ∃ values,
      Effectful.evalAll elements t = some (values,r.2) ∧
        r.1 = Tp2ccSet.fromList E (values.map E.convert)
  | .lambda body, r => BodyRuns body (.empty E,t) r

/-- One evaluation of everything in the element. -/
def Rt.LiteralElem.eval {α β : Type} (f : α → Trace σ → Option (β × Trace σ)) :
    LiteralElem α → Trace σ → Option (LiteralElem β × Trace σ)
  | .value e, t => do
    let (v,t) ← f e t
    return (.value v,t)
  | .range lo hi, t => do
    let (l,t) ← f lo t
    let (h,t) ← f hi t
    return (.range l h,t)

def evalElements {α β : Type} (f : α → Trace σ → Option (β × Trace σ)) :
    List (LiteralElem α) → Trace σ → Option (List (LiteralElem β) × Trace σ)
  | [], t => some ([],t)
  | element :: elements, t => do
    let (x,t) ← element.eval f t
    let (xs,t) ← evalElements f elements t
    return (x :: xs,t)

abbrev literalValues (elements : List (LiteralElem (ElementOperand σ))) (t : Trace σ) :
    Option (List (LiteralElem LiteralNumber) × Trace σ) := evalElements ElementOperand.eval elements t

abbrev textValues (elements : List (LiteralElem (Effectful σ Int))) (t : Trace σ) :
    Option (List (LiteralElem Int) × Trace σ) := evalElements Effectful.eval elements t

def listedOrdinals (low high : Int) (values : List (LiteralElem LiteralNumber)) : Set Int :=
  {w | Ordinal w ∧ (low ≤ w ∧ w ≤ high) ∧ ∃ x ∈ values, x.listed.Has w}

/-- The emitted expression comes to an end with the set of the literal's values that are in the
domain of the element type, and evaluates what the literal does, as often and in the same order. -/
def BuildsLiteral (E : ElemType) (prim : Option IntType) (low high : Int)
    (elements : List (LiteralElem (ElementOperand σ))) (start : σ)
    (values : List (LiteralElem LiteralNumber)) (t : Trace σ) : Prop :=
  ∃ s : Tp2ccSet E, (setLiteralToCxx prim elements).Runs ⟨start, []⟩ (s,t) ∧
    s.ordinals = listedOrdinals low high values

/-- The loop of the range is entered and evaluates its bound again. -/
def Rt.LiteralElem.Reruns : LiteralElem (Effectful σ Int) → LiteralElem Int → Prop
  | .range _ (.code _ _), .range lo hi => Rt.cxxInt64.reduce lo ≤ Rt.cxxInt64.reduce hi
  | _, _ => False

instance : (x : LiteralElem (Effectful σ Int)) → (value : LiteralElem Int) →
    Decidable (x.Reruns value)
  | .range _ (.code _ _), .range _ _ => inferInstanceAs (Decidable (_ ≤ _))
  | .range _ (.code _ _), .value _ => isFalse id
  | .range _ (.const _), .range _ _ => isFalse id
  | .range _ (.const _), .value _ => isFalse id
  | .value _, .range _ _ => isFalse id
  | .value _, .value _ => isFalse id

/-- No entered range has a run-time expression as its upper bound. -/
def BoundsOnce (prim : Option IntType) (elements : List (LiteralElem (ElementOperand σ)))
    (values : List (LiteralElem LiteralNumber)) : Prop :=
  ∀ p ∈ (elements.map (·.toCxx prim)).zip (values.map (·.emitted prim)), ¬p.1.Reruns p.2

instance (prim : Option IntType) (elements : List (LiteralElem (ElementOperand σ)))
    (values : List (LiteralElem LiteralNumber)) : Decidable (BoundsOnce prim elements values) :=
  inferInstanceAs (Decidable (∀ p ∈ _, ¬_))

/-- No counter runs into the greatest `int64_t`, and the ordinals that the emitted numbers become are
those listed in the domain. -/
structure LiteralKept (E : ElemType) (prim : Option IntType) (low high : Int)
    (values : List (LiteralElem LiteralNumber)) : Prop where
  ends : ∀ x ∈ values, (x.emitted prim).Ends
  same : ∀ w, Ordinal w → ((∃ x ∈ values, (x.emitted prim).Reaches E w) ↔
    (low ≤ w ∧ w ≤ high) ∧ ∃ x ∈ values, x.listed.Has w)

section
variable {s s' : Tp2ccSet E} {t t' t'' : Trace σ} {v : Int}

theorem int64_le_hi (v : Int) : Rt.cxxInt64.reduce v ≤ Rt.cxxInt64.hi :=
  (Rt.cxxInt64.reduce_holds v).2

theorem addRange_step {hi : Int} (hv : v ≤ hi) (hmax : v ≠ Rt.cxxInt64.hi) (s : Tp2ccSet E) :
    s.addRange v hi = (s.add (E.convert v)).addRange (v+1) hi := by
  unfold Tp2ccSet.addRange
  by_cases hend : hi = Rt.cxxInt64.hi
  · rw [if_pos ⟨hv, hend⟩, if_pos ⟨by omega, hend⟩]
  · rw [if_neg fun h => hend h.2, if_neg fun h => hend h.2]
    have hcount : (hi+1-v).toNat = (hi+1-(v+1)).toNat+1 := by omega
    rw [hcount, Tp2ccSet.addFrom]

theorem addRange_empty {hi : Int} (hv : ¬v ≤ hi) (s : Tp2ccSet E) : s.addRange v hi = some s := by
  have hcount : (hi+1-v).toNat = 0 := by omega
  rw [Tp2ccSet.addRange, if_neg fun h => hv h.1, hcount, Tp2ccSet.addFrom]

theorem loopRuns_const {h : Int} : LoopRuns (.const h) v (s,t) (s',t') ↔
    t' = t ∧ s.addRange v (Rt.cxxInt64.reduce h) = some s' := by
  constructor
  · intro hloop
    generalize hb : (s,t) = b at hloop
    generalize hb' : (s',t') = b' at hloop
    induction hloop generalizing s t with
    | exit hhi hv =>
      cases hb
      cases hb'
      cases hhi
      exact ⟨rfl, addRange_empty hv _⟩
    | round hhi hv hmax hrest ih =>
      cases hb
      cases hhi
      rw [addRange_step hv hmax]
      exact ih rfl hb'
  · rintro ⟨rfl, hadd⟩
    obtain ⟨n, hn⟩ : ∃ n : Nat, n = (Rt.cxxInt64.reduce h+1-v).toNat := ⟨_, rfl⟩
    induction n generalizing v s with
    | zero =>
      have hv : ¬v ≤ Rt.cxxInt64.reduce h := by omega
      rw [addRange_empty hv] at hadd
      cases hadd
      exact .exit rfl hv
    | succ n ih =>
      have hv : v ≤ Rt.cxxInt64.reduce h := by omega
      have hle := int64_le_hi h
      have hmax : v ≠ Rt.cxxInt64.hi := by
        intro hmax
        rw [Tp2ccSet.addRange, if_pos ⟨hv, by omega⟩] at hadd
        cases hadd
      rw [addRange_step hv hmax] at hadd
      exact .round rfl hv hmax (ih hadd (by omega))

theorem loopRuns_length {hi : Effectful σ Int} (h : LoopRuns hi v (s,t) (s',t')) :
    t.log.length + hi.names.length ≤ t'.log.length := by
  generalize hb : (s,t) = b at h
  generalize hb' : (s',t') = b' at h
  induction h generalizing s t with
  | exit hhi hv =>
    cases hb
    cases hb'
    exact (Effectful.eval_length hhi).ge
  | round hhi hv hmax hrest ih =>
    cases hb
    have := Effectful.eval_length hhi
    have := ih rfl hb'
    omega

def Rt.LiteralElem.count : LiteralElem (Effectful σ Int) → Nat
  | .value e => e.names.length
  | .range lo hi => lo.names.length + hi.names.length

theorem Rt.LiteralElem.eval_length {x : LiteralElem (Effectful σ Int)} {value : LiteralElem Int}
    (h : x.eval Effectful.eval t = some (value,t')) : t'.log.length = t.log.length + x.count := by
  cases x with
  | value e =>
    obtain ⟨⟨u, t₁⟩, hu, h⟩ := Option.bind_eq_some_iff.mp h
    cases h
    exact Effectful.eval_length hu
  | range lo hi =>
    obtain ⟨⟨l, t₁⟩, hl, h⟩ := Option.bind_eq_some_iff.mp h
    obtain ⟨⟨u, t₂⟩, hu, h⟩ := Option.bind_eq_some_iff.mp h
    cases h
    rw [Effectful.eval_length hu, Effectful.eval_length hl, count, Nat.add_assoc]

theorem statementRuns_length {x : LiteralElem (Effectful σ Int)} (h : StatementRuns x.statement (s,t) (s',t')) :
    t.log.length + x.count ≤ t'.log.length := by
  cases x with
  | value e =>
    cases h with
    | add he => exact (Effectful.eval_length he).ge
  | range lo hi =>
    cases h with
    | loop hlo hloop =>
      have := Effectful.eval_length hlo
      have := loopRuns_length hloop
      rw [LiteralElem.count]
      omega

theorem statementRuns_reruns {x : LiteralElem (Effectful σ Int)} {value : LiteralElem Int}
    (hx : x.eval Effectful.eval t = some (value,t')) (hre : x.Reruns value)
    (h : StatementRuns x.statement (s,t) (s',t'')) :
    t.log.length + x.count < t''.log.length := by
  cases x with
  | value e => cases value <;> cases hre
  | range lo hi =>
    obtain ⟨⟨l, t₁⟩, hl, hx⟩ := Option.bind_eq_some_iff.mp hx
    obtain ⟨⟨u, t₂⟩, hu, hx⟩ := Option.bind_eq_some_iff.mp hx
    cases hx
    cases hi with
    | const u => cases hre
    | code name run =>
      cases h with
      | loop hlo hloop =>
        rw [hl] at hlo
        cases hlo
        have hlen := Effectful.eval_length hl
        cases hloop with
        | exit hhi hv =>
          rw [hu] at hhi
          cases hhi
          exact absurd hre hv
        | round hhi hv hmax hrest =>
          have := Effectful.eval_length hhi
          have := loopRuns_length hrest
          simp only [LiteralElem.count, Effectful.names, List.length_cons, List.length_nil] at *
          omega

theorem statementRuns_iff {x : LiteralElem (Effectful σ Int)} {value : LiteralElem Int}
    (hx : x.eval Effectful.eval t = some (value,t')) (hre : ¬x.Reruns value) :
    StatementRuns x.statement (s,t) (s',t'') ↔ t'' = t' ∧ value.addTo s = some s' := by
  cases x with
  | value e =>
    obtain ⟨⟨v, t₁⟩, hv, hx⟩ := Option.bind_eq_some_iff.mp hx
    cases hx
    rw [LiteralElem.addTo]
    constructor
    · intro h
      cases h with
      | add he =>
        rw [hv] at he
        cases he
        exact ⟨rfl, rfl⟩
    · rintro ⟨ht, hs⟩
      cases ht
      cases hs
      exact .add hv
  | range lo hi =>
    obtain ⟨⟨l, t₁⟩, hl, hx⟩ := Option.bind_eq_some_iff.mp hx
    obtain ⟨⟨u, t₂⟩, hu, hx⟩ := Option.bind_eq_some_iff.mp hx
    cases hx
    have hloop : StatementRuns (.loop lo hi) (s,t) (s',t'') ↔
        LoopRuns hi (Rt.cxxInt64.reduce l) (s,t₁) (s',t'') := by
      constructor
      · intro h
        cases h with
        | loop hlo hloop =>
          rw [hl] at hlo
          cases hlo
          exact hloop
      · exact .loop hl
    rw [LiteralElem.statement, hloop, LiteralElem.addTo]
    cases hi with
    | const u =>
      cases hu
      exact loopRuns_const
    | code name run =>
      have hv : ¬Rt.cxxInt64.reduce l ≤ Rt.cxxInt64.reduce u := hre
      rw [addRange_empty hv]
      constructor
      · intro h
        cases h with
        | exit hhi _ =>
          rw [hu] at hhi
          cases hhi
          exact ⟨rfl, rfl⟩
        | round hhi hv' =>
          rw [hu] at hhi
          cases hhi
          exact absurd hv' hv
      · rintro ⟨ht, hs⟩
        cases ht
        cases hs
        exact .exit hu hv

theorem evalElements_cons {α β : Type} {f : α → Trace σ → Option (β × Trace σ)}
    {x : LiteralElem α} {xs : List (LiteralElem α)} {ys : List (LiteralElem β)} {t t'' : Trace σ}
    (h : evalElements f (x :: xs) t = some (ys,t'')) :
    ∃ y rest t', x.eval f t = some (y,t') ∧ evalElements f xs t' = some (rest,t'') ∧
      ys = y :: rest := by
  obtain ⟨⟨y, t'⟩, hx, h⟩ := Option.bind_eq_some_iff.mp h
  obtain ⟨⟨rest, t₁⟩, hxs, h⟩ := Option.bind_eq_some_iff.mp h
  cases h
  exact ⟨y, rest, t', hx, hxs, rfl⟩

theorem textValues_length {elements : List (LiteralElem (Effectful σ Int))} {values : List (LiteralElem Int)}
    (h : textValues elements t = some (values,t')) :
    t'.log.length = t.log.length + (elements.map (·.count)).sum := by
  induction elements generalizing t values with
  | nil =>
    cases h
    rfl
  | cons x xs ih =>
    obtain ⟨value, rest, t₁, hx, hxs, -⟩ := evalElements_cons h
    rw [ih hxs, LiteralElem.eval_length hx, List.map_cons, List.sum_cons, Nat.add_assoc]

theorem bodyRuns_length {elements : List (LiteralElem (Effectful σ Int))}
    (h : BodyRuns (elements.map (·.statement)) (s,t) (s',t')) :
    t.log.length + (elements.map (·.count)).sum ≤ t'.log.length := by
  induction elements generalizing s t with
  | nil =>
    cases h
    exact le_refl _
  | cons x xs ih =>
    cases h with
    | @cons _ _ _ b _ hstmt hbody =>
      obtain ⟨s₁, t₁⟩ := b
      have := statementRuns_length hstmt
      have := ih hbody
      rw [List.map_cons, List.sum_cons]
      omega

theorem bodyRuns_once {elements : List (LiteralElem (Effectful σ Int))} {values : List (LiteralElem Int)}
    (h : textValues elements t = some (values,t'))
    (honce : ∀ p ∈ elements.zip values, ¬p.1.Reruns p.2) :
    BodyRuns (elements.map (·.statement)) (s,t) (s',t'') ↔
      t'' = t' ∧ values.foldlM LiteralElem.addTo s = some s' := by
  induction elements generalizing s t values with
  | nil =>
    cases h
    constructor
    · intro h
      cases h
      exact ⟨rfl, rfl⟩
    · rintro ⟨rfl, hs⟩
      cases hs
      exact .nil
  | cons x xs ih =>
    obtain ⟨value, rest, t₁, hx, hxs, rfl⟩ := evalElements_cons h
    rw [List.zip_cons_cons, List.forall_mem_cons] at honce
    rw [List.foldlM_cons]
    constructor
    · intro h
      cases h with
      | @cons _ _ _ b _ hstmt hbody =>
        obtain ⟨s₂, t₂⟩ := b
        obtain ⟨ht, hadd⟩ := (statementRuns_iff hx honce.1).mp hstmt
        subst ht
        obtain ⟨ht', hrest⟩ := (ih hxs honce.2).mp hbody
        rw [hadd]
        exact ⟨ht', hrest⟩
    · rintro ⟨ht', hfold⟩
      obtain ⟨s₁, hadd, hrest⟩ := Option.bind_eq_some_iff.mp hfold
      exact .cons ((statementRuns_iff hx honce.1).mpr ⟨rfl, hadd⟩) ((ih hxs honce.2).mpr ⟨ht', hrest⟩)

theorem not_reruns_of_bodyRuns {elements : List (LiteralElem (Effectful σ Int))} {values : List (LiteralElem Int)}
    (h : textValues elements t = some (values,t'))
    (hruns : BodyRuns (elements.map (·.statement)) (s,t) (s',t')) :
    ∀ p ∈ elements.zip values, ¬p.1.Reruns p.2 := by
  induction elements generalizing s t values with
  | nil =>
    intro p hp
    cases hp
  | cons x xs ih =>
    obtain ⟨value, rest, t₁, hx, hxs, rfl⟩ := evalElements_cons h
    cases hruns with
    | @cons _ _ _ b _ hstmt hbody =>
      obtain ⟨s₂, t₂⟩ := b
      have hre : ¬x.Reruns value := by
        intro hre
        have := statementRuns_reruns hx hre hstmt
        have := bodyRuns_length hbody
        have := textValues_length hxs
        have := LiteralElem.eval_length hx
        omega
      obtain ⟨ht, -⟩ := (statementRuns_iff hx hre).mp hstmt
      subst ht
      rw [List.zip_cons_cons, List.forall_mem_cons]
      exact ⟨hre, ih hxs hbody⟩

/-- The body ends with the log of the literal exactly when no range evaluates its bound again. -/
theorem bodyRuns_iff {elements : List (LiteralElem (Effectful σ Int))} {values : List (LiteralElem Int)}
    (h : textValues elements t = some (values,t')) :
    BodyRuns (elements.map (·.statement)) (s,t) (s',t') ↔
      (∀ p ∈ elements.zip values, ¬p.1.Reruns p.2) ∧
        values.foldlM LiteralElem.addTo s = some s' := by
  constructor
  · intro hruns
    have honce := not_reruns_of_bodyRuns h hruns
    exact ⟨honce, ((bodyRuns_once h honce).mp hruns).2⟩
  · rintro ⟨honce, hfold⟩
    exact (bodyRuns_once h honce).mpr ⟨rfl, hfold⟩

theorem bodyRuns_fromList {elements : List (LiteralElem (Effectful σ Int))} (h : ¬elements.any (·.isRange)) :
    BodyRuns (elements.map (·.statement)) (s,t) (s',t') ↔ ∃ values,
      Effectful.evalAll (elements.filterMap (·.operand?)) t = some (values,t') ∧
        s' = (values.map E.convert).foldl Tp2ccSet.add s := by
  induction elements generalizing s t with
  | nil =>
    constructor
    · intro h
      cases h
      exact ⟨[], rfl, rfl⟩
    · rintro ⟨values, heval, hs⟩
      cases heval
      cases hs
      exact .nil
  | cons x xs ih =>
    cases x with
    | range lo hi => simp [LiteralElem.isRange] at h
    | value e =>
      have hxs : ¬xs.any (·.isRange) := by
        simpa [LiteralElem.isRange] using h
      constructor
      · intro h
        cases h with
        | @cons _ _ _ b _ hstmt hbody =>
          cases hstmt with
          | @add _ _ _ t₁ v he =>
            obtain ⟨values, heval, hs⟩ := (ih hxs).mp hbody
            exact ⟨v :: values, Effectful.evalAll_cons.mpr ⟨t₁, he, heval⟩, hs⟩
      · rintro ⟨values, heval, hs⟩
        obtain ⟨v, vs, rfl⟩ := Effectful.evalAll_ne_nil heval
        obtain ⟨t₁, he, hes⟩ := Effectful.evalAll_cons.mp heval
        exact .cons (.add he) ((ih hxs).mpr ⟨vs, hes, hs⟩)

/-- The three forms of a literal are the lambda, written shorter. -/
theorem setText_runs (elements : List (LiteralElem (Effectful σ Int))) :
    (setText elements).Runs t (s',t') ↔
      BodyRuns (elements.map (·.statement)) (.empty E,t) (s',t') := by
  unfold setText
  split
  · rename_i hempty
    rw [List.isEmpty_iff.mp hempty]
    constructor
    · intro h
      cases h
      exact .nil
    · intro h
      cases h
      rfl
  · split
    · exact Iff.rfl
    · rename_i hrange
      exact (bodyRuns_fromList hrange).symm

end

section
variable {prim : Option IntType} {values : List (LiteralElem LiteralNumber)}

theorem ElementOperand.eval_constValueToCxx {x : ElementOperand σ} {t t' : Trace σ} {n : LiteralNumber}
    (h : x.eval t = some (n,t')) : (x.constValueToCxx prim).eval t = some (n.emitted prim,t') := by
  cases x with
  | number v =>
    cases h
    rfl
  | other e =>
    obtain ⟨⟨v, t₁⟩, he, h⟩ := Option.map_eq_some_iff.mp h
    cases h
    have hv : LiteralNumber.emitted prim ⟨v, false⟩ = v := by
      unfold LiteralNumber.emitted
      cases prim <;> rfl
    rw [constValueToCxx, he, hv]

theorem Rt.LiteralElem.eval_toCxx {x : LiteralElem (ElementOperand σ)} {t t' : Trace σ}
    {value : LiteralElem LiteralNumber} (h : x.eval ElementOperand.eval t = some (value,t')) :
    (x.toCxx prim).eval Effectful.eval t = some (value.emitted prim,t') := by
  cases x with
  | value e =>
    obtain ⟨⟨v, t₁⟩, hv, h⟩ := Option.bind_eq_some_iff.mp h
    cases h
    simp [toCxx, map, eval, ElementOperand.eval_constValueToCxx hv, emitted]
  | range lo hi =>
    obtain ⟨⟨l, t₁⟩, hl, h⟩ := Option.bind_eq_some_iff.mp h
    obtain ⟨⟨u, t₂⟩, hu, h⟩ := Option.bind_eq_some_iff.mp h
    cases h
    simp [toCxx, map, eval, ElementOperand.eval_constValueToCxx hl,
      ElementOperand.eval_constValueToCxx hu, emitted]

theorem textValues_toCxx (prim : Option IntType) {elements : List (LiteralElem (ElementOperand σ))}
    {t t' : Trace σ} (h : literalValues elements t = some (values,t')) :
    textValues (elements.map (·.toCxx prim)) t = some (values.map (·.emitted prim),t') := by
  induction elements generalizing t values with
  | nil =>
    cases h
    rfl
  | cons x xs ih =>
    obtain ⟨value, rest, t₁, hx, hxs, rfl⟩ := evalElements_cons h
    simp [evalElements, Rt.LiteralElem.eval_toCxx hx, ih hxs]

theorem addLiterals_iff {texts : List (LiteralElem Int)} {s s' : Tp2ccSet E}
    (h : texts.foldlM LiteralElem.addTo s = some s') : (∀ x ∈ texts, x.Ends) ∧
      ∀ w, w ∈ s'.ordinals ↔ w ∈ s.ordinals ∨ Ordinal w ∧ ∃ x ∈ texts, x.Reaches E w := by
  induction texts generalizing s with
  | nil =>
    cases h
    exact ⟨fun _ h => absurd h List.not_mem_nil, by simp⟩
  | cons x xs ih =>
    obtain ⟨s₁, hx, hxs⟩ := Option.bind_eq_some_iff.mp h
    obtain ⟨hends, hmem⟩ := ih hxs
    refine ⟨List.forall_mem_cons.mpr ⟨LiteralElem.ends_of_addTo hx, hends⟩, fun w => ?_⟩
    rw [hmem w, LiteralElem.mem_addTo hx w, or_assoc, List.exists_mem_cons_iff, and_or_left]

theorem addLiterals_exists {texts : List (LiteralElem Int)} (h : ∀ x ∈ texts, x.Ends)
    (s : Tp2ccSet E) : ∃ s', texts.foldlM LiteralElem.addTo s = some s' := by
  induction texts generalizing s with
  | nil => exact ⟨s, rfl⟩
  | cons x xs ih =>
    rw [List.forall_mem_cons] at h
    obtain ⟨s₁, hx⟩ := LiteralElem.addTo_exists h.1 s
    obtain ⟨s₂, hxs⟩ := ih h.2 s₁
    exact ⟨s₂, by rw [List.foldlM_cons, hx]; exact hxs⟩

theorem literalSet_iff_kept {low high : Int} :
    (∃ s : Tp2ccSet E, literalSet E (values.map (·.emitted prim)) = some s ∧
      s.ordinals = listedOrdinals low high values) ↔ LiteralKept E prim low high values := by
  constructor
  · rintro ⟨s, hs, ho⟩
    obtain ⟨hends, hmem⟩ := addLiterals_iff hs
    rw [List.forall_mem_map] at hends
    refine ⟨hends, fun w hw => ?_⟩
    have h := hmem w
    rw [ho, Tp2ccSet.ordinals_empty] at h
    simpa [listedOrdinals, hw] using h.symm
  · intro h
    obtain ⟨s, hs⟩ := addLiterals_exists (List.forall_mem_map.mpr h.ends) (.empty E)
    refine ⟨s, hs, ?_⟩
    ext w
    rw [(addLiterals_iff hs).2 w, Tp2ccSet.ordinals_empty, Set.mem_empty_iff_false, false_or]
    simp only [List.mem_map, exists_exists_and_eq_and]
    apply and_congr_right
    intro hw
    exact h.same w hw

theorem lands_iff_of_bits (hbits : E.carrier.bits ≤ 32) {v w : Int} (hv : E.carrier.Holds v) :
    E.Lands v w ↔ w = v := by
  constructor
  · intro hl
    have hw := ElemType.holds_of_lands hl
    cases E with
    | integer t =>
      have hmod := hl.2
      rw [Nat.min_eq_left hbits] at hmod
      exact IntType.eq_of_emod hw hv hmod
    | char => exact IntType.eq_of_emod hw hv hl.2
    | bool =>
      simp only [ElemType.Lands] at hl
      obtain ⟨h₁, h₂⟩ := hv
      simp only [ElemType.carrier, IntType.lo, IntType.hi, Bool.false_eq_true, if_false] at h₁ h₂
      split at hl <;> omega
  · rintro rfl
    exact ElemType.lands_self hv

theorem within_int64_of_bits {c : IntType} (hbits : c.bits ≤ 32) : c.Within Rt.cxxInt64 := by
  cases hs : c.signed with
  | true => exact IntType.within_of_same hs (hbits.trans (by decide))
  | false => exact IntType.within_of_unsigned hs rfl (hbits.trans_lt (by decide))

theorem range_builds (hbits : E.carrier.bits ≤ 32) {lo hi : Int} (hlo : E.carrier.Holds lo)
    (hhi : E.carrier.Holds hi) : LiteralElem.Builds E (.range lo hi) (.range lo hi) := by
  have hwithin := within_int64_of_bits hbits
  have hbetween {v : Int} (h₁ : lo ≤ v) (h₂ : v ≤ hi) : E.carrier.Holds v :=
    ⟨hlo.1.trans h₁, h₂.trans hhi.2⟩
  have hlt : hi < Rt.cxxInt64.hi := by
    have h₁ := IntType.two_pow_mono hbits
    have h₂ := IntType.two_pow_mono (Nat.sub_le E.carrier.bits 1)
    have h₃ := hhi.2
    have h₄ : Rt.cxxInt64.hi = 2^63-1 := rfl
    unfold IntType.hi at h₃
    split at h₃ <;> omega
  have hlo64 := IntType.reduce_of_holds (hwithin.holds hlo)
  have hhi64 := IntType.reduce_of_holds (hwithin.holds hhi)
  refine ⟨fun _ hmax => ?_, fun w _ => ?_⟩
  · rw [hhi64] at hmax
    omega
  · simp only [LiteralElem.Reaches, LiteralElem.Has, hlo64, hhi64]
    constructor
    · rintro ⟨v, hv, hl⟩
      rw [(lands_iff_of_bits hbits (hbetween hv.1 hv.2)).mp hl]
      exact hv
    · intro hw
      exact ⟨w, hw, (lands_iff_of_bits hbits (hbetween hw.1 hw.2)).mpr rfl⟩

def Rt.LiteralElem.Within (low high : Int) : LiteralElem Int → Prop
  | .value v => low ≤ v ∧ v ≤ high
  | .range lo hi => (low ≤ lo ∧ lo ≤ high) ∧ low ≤ hi ∧ hi ≤ high

theorem emitted_of_within {low high : Int} (hlow : E.carrier.Holds low)
    (hhigh : E.carrier.Holds high) (hprim : ∀ t, prim = some t → t = E.carrier)
    {x : LiteralElem LiteralNumber} (h : x.listed.Within low high) : x.emitted prim = x.listed := by
  have hsame (n : LiteralNumber) (hn : low ≤ n.value ∧ n.value ≤ high) :
      n.emitted prim = n.value := by
    unfold LiteralNumber.emitted
    cases prim with
    | none => rfl
    | some t =>
      have hholds : t.Holds n.value := by
        rw [hprim t rfl]
        exact ⟨hlow.1.trans hn.1, hn.2.trans hhigh.2⟩
      simp only [IntType.reduce_of_holds hholds, ite_self]
  cases x with
  | value n => simp only [LiteralElem.emitted, LiteralElem.listed, LiteralElem.map, hsame n h]
  | range lo hi =>
    simp only [LiteralElem.emitted, LiteralElem.listed, LiteralElem.map, hsame lo h.1, hsame hi h.2]

theorem within_builds {low high : Int} (hbits : E.carrier.bits ≤ 32) (hlow : E.carrier.Holds low)
    (hhigh : E.carrier.Holds high) {x : LiteralElem Int} (h : x.Within low high) :
    LiteralElem.Builds E x x := by
  have hholds {v : Int} (h₁ : low ≤ v) (h₂ : v ≤ high) : E.carrier.Holds v :=
    ⟨hlow.1.trans h₁, h₂.trans hhigh.2⟩
  cases x with
  | value v => exact ⟨trivial, fun w _ => lands_iff_of_bits hbits (hholds h.1 h.2)⟩
  | range lo hi => exact range_builds hbits (hholds h.1.1 h.1.2) (hholds h.2.1 h.2.2)

theorem within_domain {low high w : Int} {x : LiteralElem Int} (h : x.Within low high)
    (hw : x.Has w) : low ≤ w ∧ w ≤ high := by
  cases x with
  | value v =>
    cases hw
    exact h
  | range lo hi => exact ⟨h.1.1.trans hw.1, hw.2.trans h.2.2⟩

theorem literalKept_of_within {low high : Int} (hbits : E.carrier.bits ≤ 32)
    (hlow : E.carrier.Holds low) (hhigh : E.carrier.Holds high)
    (hprim : ∀ t, prim = some t → t = E.carrier)
    (h : ∀ x ∈ values, x.listed.Within low high) : LiteralKept E prim low high values := by
  have hbuilds : ∀ x ∈ values, LiteralElem.Builds E (x.emitted prim) x.listed := by
    intro x hx
    rw [emitted_of_within hlow hhigh hprim (h x hx)]
    exact within_builds hbits hlow hhigh (h x hx)
  obtain ⟨s, hs, ho⟩ := literalSet_of_builds hbuilds
  refine literalSet_iff_kept.mp ⟨s, hs, ?_⟩
  rw [ho]
  ext w
  simp only [literalOrdinals, listedOrdinals, Set.mem_ofPred_eq, List.mem_map,
    exists_exists_and_eq_and]
  apply and_congr_right
  intro _
  constructor
  · rintro ⟨x, hx, hw⟩
    exact ⟨within_domain (h x hx) hw, x, hx, hw⟩
  · exact And.right

end

/-- A function that counts its calls and returns its argument. -/
def countedCall (v : Nat) : Effectful Nat Int := .code v fun calls => some (v,calls+1)

/-- `[f(7), f(5)..f(3), 200]` -/
def callsInverted : List (LiteralElem (ElementOperand Nat)) :=
  [.value (.other (countedCall 7)), .range (.other (countedCall 5)) (.other (countedCall 3)),
    .value (.number 200)]

def inverted : List (LiteralElem LiteralNumber) :=
  [.value ⟨7, false⟩, .range ⟨5, false⟩ ⟨3, false⟩, .value ⟨200, true⟩]

def callsRange : List (LiteralElem (ElementOperand Nat)) :=
  [.range (.other (countedCall 3)) (.other (countedCall 5))]

def threeFive : List (LiteralElem LiteralNumber) := [.range ⟨3, false⟩ ⟨5, false⟩]

end Tp2cc
