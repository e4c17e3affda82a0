import Mathlib.Data.Finset.Card
import Mathlib.Data.Fintype.Card
import Tp2cc.Analysis.ConstShift
import Tp2cc.Order.LeastTable

/-! The cache of the ordinals of enums. Folding the value of a member may ask for members, of the
same enum and of others. -/
set_option autoImplicit false

namespace Tp2cc.Enums
open Machine Rt LeastTable

abbrev Member (ε : Type) : Type := ε × Nat

/-- `eval_const_int_expr` on the value of a member: the members it asks for, and the constant. A
constant that it finds is the one it finds when more ordinals are known. -/
structure MemberExpr (ε : Type) where
  fold : Query (Member ε) Int {info : ConstIntExprInfo // info.Faithful}
  keeps : fold.Keeps

inductive MemberValue (ε : Type) where
  | implicit
  | explicit (value : MemberExpr ε)

abbrev EnumDecls (ε : Type) : Type := ε → List (MemberValue ε)

structure OrdinalState (ε : Type) where
  /-- `enum_ordinal_cache_`. -/
  cache : Member ε → Option Int
  /-- `enums_being_evaluated_`. -/
  evaluating : Finset ε
  /-- Where the values are reported not to be strictly ascending, the last first. -/
  errors : List (Member ε)

def OrdinalState.start {ε : Type} : OrdinalState ε := ⟨fun _ => none, ∅, []⟩

/-- A constant is no ordinal if only 64 unsigned bits hold it. -/
def explicitOrdinal (info : ConstIntExprInfo) : Option Int :=
  if info.isUnsigned ∧ info.bits.val > 2^63-1 then none else some info.value.val

def implicitOrdinal : Option Int → Option Int
  | none => some 0
  | some previous => if cxxInt64.Holds (previous+1) then some (previous+1) else none

section
variable {ε : Type} [DecidableEq ε]

def OrdinalState.store (s : OrdinalState ε) (m : Member ε) (v : Int) : OrdinalState ε :=
  { s with cache := Function.update s.cache m (some v) }

def OrdinalState.report (s : OrdinalState ε) (m : Member ε) : OrdinalState ε :=
  { s with errors := m :: s.errors }

variable (decls : EnumDecls ε)

section
variable (evaluate : ε → OrdinalState ε → Option (OrdinalState ε))

def enumMemberOrdinal (m : Member ε) (s : OrdinalState ε) : Option (Option Int × OrdinalState ε) :=
  if m.2 ≥ (decls m.1).length then some (none, s)
  else
    match s.cache m with
    | some v => some (some v, s)
    | none => (evaluate m.1 s).map fun s => (s.cache m, s)

def findOrdinal (value : MemberValue ε) (previous : Option Int) (s : OrdinalState ε) :
    Option (Option Int × OrdinalState ε) :=
  match value with
  | .explicit e => (e.fold.run (enumMemberOrdinal decls evaluate) s).map fun r =>
      (r.1.bind fun info => explicitOrdinal info.val, r.2)
  | .implicit => some (implicitOrdinal previous, s)

def valueOrdinal (m : Member ε) (value : MemberValue ε) (previous : Option Int)
    (s : OrdinalState ε) : Option (Option Int × OrdinalState ε) :=
  match s.cache m with
  | some v => some (some v, s)
  | none => (findOrdinal decls evaluate value previous s).map fun r =>
      (r.1, match r.1 with
        | some v => r.2.store m v
        | none => r.2)

/-- `if (have_previous && *values[index] <= previous)` -/
def checkAscending (m : Member ε) (previous : Option Int) (v : Int) (s : OrdinalState ε) :
    OrdinalState ε :=
  if previous.any (v ≤ ·) then s.report m else s

/-- The loop over the members from one on. Without a value it breaks. -/
def evaluateMembers (e : ε) : List (MemberValue ε) → Nat → Option Int → OrdinalState ε →
    Option (OrdinalState ε)
  | [], _, _, s => some s
  | value :: values, index, previous, s => do
    let (found, s) ← valueOrdinal decls evaluate (e, index) value previous s
    match found with
    | none => return s
    | some v =>
      evaluateMembers e values (index+1) (some v) (checkAscending (e, index) previous v s)

end

/-- `evaluate_enum_ordinals`; `none` when the depth of the recursion is not enough. -/
def evaluateEnumOrdinals : Nat → ε → OrdinalState ε → Option (OrdinalState ε)
  | 0, _, _ => none
  | depth+1, e, s =>
    if e ∈ s.evaluating then some s
    else
      (evaluateMembers decls (evaluateEnumOrdinals depth) e (decls e) 0 none
        { s with evaluating := insert e s.evaluating }).map fun s =>
          { s with evaluating := s.evaluating.erase e }

def askOrdinal [Fintype ε] (m : Member ε) (s : OrdinalState ε) :
    Option (Option Int × OrdinalState ε) :=
  enumMemberOrdinal decls (evaluateEnumOrdinals decls (Fintype.card ε+1)) m s

inductive Reachable [Fintype ε] : OrdinalState ε → Prop
  | start : Reachable .start
  | ask {s s' : OrdinalState ε} {m : Member ε} {found : Option Int} (h : Reachable s)
      (hask : askOrdinal decls m s = some (found, s')) : Reachable s'

/-- The ordinal before a member's. There is none before the first one, and behind a member without
an ordinal none is looked for. -/
def previousOrdinal (table : Member ε → Option Int) (m : Member ε) : Option (Option Int) :=
  match m.2 with
  | 0 => some none
  | index+1 => (table (m.1, index)).map some

def MemberValue.ordinal (table : Member ε → Option Int) (previous : Option Int) :
    MemberValue ε → Option Int
  | explicit e => (e.fold.eval table).bind fun info => explicitOrdinal info.val
  | implicit => implicitOrdinal previous

/-- What the declarations say of a member where the ordinals stand in a table. -/
def declaredOrdinal (table : Member ε → Option Int) (m : Member ε) : Option Int := do
  let value ← (decls m.1)[m.2]?
  let previous ← previousOrdinal table m
  value.ordinal table previous

noncomputable def ordinals : Member ε → Option Int := least (declaredOrdinal decls)

def NotAscending (table : Member ε → Option Int) (m : Member ε) : Prop :=
  ∃ index p v, m.2 = index+1 ∧ table (m.1, index) = some p ∧ table m = some v ∧ v ≤ p

end
end Tp2cc.Enums
