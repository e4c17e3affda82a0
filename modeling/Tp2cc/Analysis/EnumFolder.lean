import Tp2cc.Analysis.EnumOrdinals

set_option autoImplicit false

namespace Tp2cc

section
variable (target : TargetInfo) {ι κ : Type}

def ConstExpr.map (f : ι → κ) : ConstExpr ι → ConstExpr κ
  | lit value => lit value
  | ident name => ident (f name)
  | unary op operand => unary op (operand.map f)
  | binary op lhs rhs qCheck => binary op (lhs.map f) (rhs.map f) qCheck
  | step subtracts operand qCheck rCheck => step subtracts (operand.map f) qCheck rCheck
  | cast type plain operand => cast type plain (operand.map f)

def IdentEnv.comap (env : IdentEnv κ) (f : ι → κ) : IdentEnv ι :=
  ⟨fun name => env.fold (f name), fun name => env.type (f name)⟩

theorem evalConstIntExpr_map (env : IdentEnv κ) (f : ι → κ) (e : ConstExpr ι) :
    evalConstIntExpr target env (e.map f) = evalConstIntExpr target (env.comap f) e ∧
      deduceType target env (e.map f) = deduceType target (env.comap f) e := by
  induction e with
  | lit value => exact ⟨rfl, rfl⟩
  | ident name => exact ⟨rfl, rfl⟩
  | unary op operand ih =>
    simp only [ConstExpr.map, evalConstIntExpr, deduceType, ih.1, ih.2, and_self]
  | binary op lhs rhs q ihl ihr =>
    simp only [ConstExpr.map, evalConstIntExpr, deduceType, ihl.1, ihl.2, ihr.1, ihr.2, and_self]
  | step subtracts operand q r ih =>
    simp only [ConstExpr.map, evalConstIntExpr, deduceType, ih.1, ih.2, and_self]
  | cast p plain operand ih =>
    simp only [ConstExpr.map, evalConstIntExpr, deduceType, ih.1, and_self]

/-- The second scope knows the value of every identifier that the first one knows. -/
structure IdentEnv.Grows (env env' : IdentEnv ι) : Prop where
  fold : ∀ name info, env.fold name = .value info → env'.fold name = .value info
  type : env'.type = env.type

theorem evalConstIntExpr_grows {env env' : IdentEnv ι} (h : env.Grows env') {e : ConstExpr ι}
    {info : ConstIntExprInfo} (he : evalConstIntExpr target env e = .value info) :
    evalConstIntExpr target env' e = .value info ∧
      deduceType target env' e = deduceType target env e := by
  induction e generalizing info with
  | lit value => exact ⟨he, rfl⟩
  | ident name => exact ⟨h.fold name info he, congrFun h.type name⟩
  | unary op operand ih =>
    rw [evalConstIntExpr] at he
    cases ho : evalConstIntExpr target env operand with
    | failed overflow => rw [ho] at he; cases he
    | value a =>
      obtain ⟨hv, ht⟩ := ih ho
      rw [ho] at he
      simp only [evalConstIntExpr, deduceType, hv, ht, ho, and_true]
      exact he
  | binary op lhs rhs q ihl ihr =>
    rw [evalConstIntExpr] at he
    split at he
    · cases he
    · rename_i bound hbound
      cases hl : evalConstIntExpr target env lhs with
      | failed overflow => rw [hl] at he; cases he
      | value a =>
        cases hr : evalConstIntExpr target env rhs with
        | failed overflow => rw [hl, hr] at he; cases he
        | value b =>
          obtain ⟨hvl, htl⟩ := ihl hl
          obtain ⟨hvr, htr⟩ := ihr hr
          rw [hl, hr] at he hbound
          simp only [evalConstIntExpr, deduceType, hvl, htl, hvr, htr, hl, hr, hbound, and_true]
          exact he
  | step subtracts operand q r ih =>
    rw [evalConstIntExpr] at he
    split at he
    · cases he
    · rename_i bound storage hbound
      cases ho : evalConstIntExpr target env operand with
      | failed overflow => rw [ho] at he; cases he
      | value a =>
        obtain ⟨hv, ht⟩ := ih ho
        rw [ho] at he
        simp only [evalConstIntExpr, deduceType, hv, ht, hbound, and_true]
        exact he
  | cast p plain operand ih =>
    rw [evalConstIntExpr] at he
    cases ho : evalConstIntExpr target env operand with
    | failed overflow => rw [ho] at he; cases he
    | value a =>
      obtain ⟨hv, ht⟩ := ih ho
      rw [ho] at he
      simp only [evalConstIntExpr, deduceType, hv, and_true]
      exact he

end

namespace Folded

def faithfulValue : (f : Folded) → f.Faithful → Option {info : ConstIntExprInfo // info.Faithful}
  | value info, h => some ⟨info, h info rfl⟩
  | failed _, _ => none

theorem faithfulValue_eq_some {f : Folded} {h : f.Faithful}
    {info : {info : ConstIntExprInfo // info.Faithful}} :
    f.faithfulValue h = some info ↔ f = value info.val := by
  cases f with
  | value found =>
    rw [faithfulValue, Option.some.injEq, Subtype.ext_iff, Folded.value.injEq]
  | failed overflow => simp [faithfulValue]

end Folded

namespace Enums
open Machine Rt LeastTable

/-- How a constant expression mentions a member: by its name, or by the `Ord` of it. -/
inductive OrdinalName (ε : Type) where
  | member (m : Member ε)
  | ord (m : Member ε)

variable {ε : Type}

def OrdinalName.owner : OrdinalName ε → Member ε
  | member m => m
  | ord m => m

def OrdinalName.type : OrdinalName ε → Option IntegerPrimitive
  | member _ => none
  | ord _ => some ⟨.longInt, PrimitiveKind.longInt_integer⟩

abbrev Answered : Type := Option Int × Option IntegerPrimitive

def foldOrdinal : Option Int → Folded
  | some v => .value (foldSigned (.ofInt _ v))
  | none => .failed false

def answeredScope : ConstScope Answered where
  fold answer := foldOrdinal answer.1
  type answer := answer.2
  faithful answer := by
    cases answer.1 with
    | some v => exact Folded.faithful_value (foldSigned_faithful _)
    | none => exact Folded.faithful_failed _

def ordinalEnv (table : Member ε → Option Int) : IdentEnv (OrdinalName ε) :=
  ⟨fun name => foldOrdinal (table name.owner), OrdinalName.type⟩

def asking {α : Type} : ConstExpr (OrdinalName ε) → (ConstExpr Answered → Query (Member ε) Int α) →
    Query (Member ε) Int α
  | .lit value, next => next (.lit value)
  | .ident name, next => .ask name.owner fun found => next (.ident (found, name.type))
  | .unary op operand, next => asking operand fun o => next (.unary op o)
  | .binary op lhs rhs qCheck, next =>
    asking lhs fun l => asking rhs fun r => next (.binary op l r qCheck)
  | .step subtracts operand qCheck rCheck, next =>
    asking operand fun o => next (.step subtracts o qCheck rCheck)
  | .cast type plain operand, next => asking operand fun o => next (.cast type plain o)

theorem eval_asking {α : Type} (table : Member ε → Option Int) (e : ConstExpr (OrdinalName ε))
    (next : ConstExpr Answered → Query (Member ε) Int α) :
    (asking e next).eval table =
      (next (e.map fun name => (table name.owner, name.type))).eval table := by
  induction e generalizing next with
  | lit value => rfl
  | ident name => rfl
  | unary op operand ih => exact ih _
  | binary op lhs rhs q ihl ihr => exact (ihl _).trans (ihr _)
  | step subtracts operand q r ih => exact ih _
  | cast p plain operand ih => exact ih _

section
variable (target : TargetInfo)

def foldAnswered (e : ConstExpr Answered) : Option {info : ConstIntExprInfo // info.Faithful} :=
  (foldIn target answeredScope e).faithfulValue (foldIn_faithful target answeredScope e)

def foldQuery (e : ConstExpr (OrdinalName ε)) :
    Query (Member ε) Int {info : ConstIntExprInfo // info.Faithful} :=
  asking e fun answered => .done (foldAnswered target answered)

theorem eval_foldQuery {table : Member ε → Option Int} {e : ConstExpr (OrdinalName ε)}
    {info : {info : ConstIntExprInfo // info.Faithful}} :
    (foldQuery target e).eval table = some info ↔
      evalConstIntExpr target (ordinalEnv table) e = .value info.val := by
  have hmap := (evalConstIntExpr_map target answeredScope.toIdentEnv
    (fun name : OrdinalName ε => (table name.owner, name.type)) e).1
  rw [foldQuery, eval_asking, Query.eval, foldAnswered, Folded.faithfulValue_eq_some, foldIn, hmap]
  rfl

theorem ordinalEnv_grows {table table' : Member ε → Option Int} (h : Below table table') :
    (ordinalEnv table).Grows (ordinalEnv table') := by
  refine ⟨fun name info hinfo => ?_, rfl⟩
  simp only [ordinalEnv] at hinfo ⊢
  cases hv : table name.owner with
  | none => rw [hv] at hinfo; cases hinfo
  | some v =>
    rw [h name.owner v hv, ← hv]
    exact hinfo

/-- The value of a member that is an integer constant expression. -/
def MemberExpr.ofConst (e : ConstExpr (OrdinalName ε)) : MemberExpr ε where
  fold := foldQuery target e
  keeps table table' h info hinfo := by
    rw [eval_foldQuery] at hinfo ⊢
    exact (evalConstIntExpr_grows target (ordinalEnv_grows h) hinfo).1

end
end Enums
end Tp2cc
