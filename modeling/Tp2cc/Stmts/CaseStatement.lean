import Tp2cc.Analysis.BinaryOperation
import Tp2cc.Analysis.Ordinal
import Tp2cc.Machine.Effect

set_option autoImplicit false

namespace Tp2cc
open Machine Rt

/-- Characters, booleans and enumerations are compared as they are stored. An integer subrange has
a primitive for its values and one that arithmetic sees. -/
inductive SelectorType where
  | integer (p : IntegerPrimitive) (isInteger : p.family = .integer)
      (notCurrency : p.kind ≠ .currency)
  | subrange (low high : Int) (storage p : IntegerPrimitive)
      (stored : ordinalIntegerPrimitiveForDomain low high = some storage)
      (selected : subrangeIntegerType low high = some p)
  | ordinal (carrier : IntType)

def SelectorType.carrier (target : TargetInfo) : SelectorType → IntType
  | .integer p _ _ => p.intType target
  | .subrange _ _ storage _ _ _ => storage.intType target
  | .ordinal carrier => carrier

/-- The primitive behind `canonicalize_for_arithmetic`. -/
def SelectorType.arithmetic? : SelectorType → Option IntegerPrimitive
  | .integer p _ _ => some p
  | .subrange _ _ _ p _ _ => some p
  | .ordinal _ => none

inductive CaseConstant (target : TargetInfo) (T : SelectorType) : Type
  | integer (p : IntegerPrimitive) (isInteger : T.arithmetic? = some p) (operand : Operand target)
  | ordinal (isOrdinal : T.arithmetic? = none) (value : Word (T.carrier target))

inductive CaseLabel (target : TargetInfo) (T : SelectorType) where
  | single (c : CaseConstant target T)
  | range (lo hi : CaseConstant target T)

abbrev Meaning (σ : Type) := Trace σ → Trace σ → Prop

mutual

/-- `construct` is any statement whose parts are statements. -/
inductive SourceStmt (target : TargetInfo) (σ : Type) : Type
  | action (run : Meaning σ)
  | construct (op : Meaning σ → Meaning σ → Meaning σ) (first second : SourceStmt target σ)
  | caseOf (T : SelectorType) (selector : Effectful σ (Word (T.carrier target)))
      (arms : CaseArms target σ T)

inductive CaseArms (target : TargetInfo) (σ : Type) : SelectorType → Type
  | noElse {T : SelectorType} : CaseArms target σ T
  | elseBranch {T : SelectorType} (body : SourceStmt target σ) : CaseArms target σ T
  | arm {T : SelectorType} (labels : List (CaseLabel target T)) (body : SourceStmt target σ)
      (rest : CaseArms target σ T) : CaseArms target σ T

end

/-- What a condition compares the copy of the selector with. -/
inductive CxxComparison (target : TargetInfo) where
  | bound (operation : BoundBinaryOperation) (rhs : Operand target)
  | native (carrier : IntType) (rhs : Word carrier)

inductive CxxCondition (target : TargetInfo) where
  | never
  | compare (op : BinOp) (name : String) (comparison : CxxComparison target)
  | both (a b : CxxCondition target)
  | either (a b : CxxCondition target)

mutual

/-- `block` declares the copy of a selector. -/
inductive CxxStmt (target : TargetInfo) (σ : Type) : Type
  | action (run : Meaning σ)
  | construct (op : Meaning σ → Meaning σ → Meaning σ) (first second : CxxStmt target σ)
  | block (name : String) (type : IntType) (init : Effectful σ (Word type))
      (chain : CxxChain target σ)

inductive CxxChain (target : TargetInfo) (σ : Type) : Type
  | done
  | body (stmt : CxxStmt target σ)
  | branch (condition : CxxCondition target) (stmt : CxxStmt target σ)
      (rest : CxxChain target σ)

end

/-- The part of the scope that case statements read and write. -/
structure EmitScope where
  localScope : List String
  localValueTypes : String → Option SelectorType
  caseStmtCounter : Nat

section
variable {target : TargetInfo} {σ : Type} {T : SelectorType}

/-- The comparison of an identifier with a constant, bound by the type that the scope has for the
identifier. No constant of the source has the name, so it does not fold. -/
def caseBinaryCondition (types : String → Option SelectorType) (name : String) (op : BinOp) :
    CaseConstant target T → CxxCondition target
  | .integer _ _ operand =>
    match (types name).bind (·.arithmetic?) with
    | some p =>
      match bindBinaryOperation target op false ⟨p, none⟩ operand.toOperandInfo with
      | some bound => .compare op name (.bound bound operand)
      | none => .compare op name (.native _ operand.value)
    | none => .compare op name (.native _ operand.value)
  | .ordinal _ value => .compare op name (.native _ value)

def caseLabelCondition (types : String → Option SelectorType) (name : String) :
    CaseLabel target T → CxxCondition target
  | .single c => caseBinaryCondition types name .eq c
  | .range lo hi => .both (caseBinaryCondition types name .gtEq lo)
      (caseBinaryCondition types name .ltEq hi)

def caseArmCondition (types : String → Option SelectorType) (name : String) :
    List (CaseLabel target T) → CxxCondition target
  | [] => .never
  | l :: ls => ls.foldl (fun out l => .either out (caseLabelCondition types name l))
      (caseLabelCondition types name l)

theorem filter_longer_lt {scope : List String} {selector : String} (h : selector ∈ scope) :
    (scope.filter fun s => (selector ++ "_").length ≤ s.length).length <
      (scope.filter fun s => selector.length ≤ s.length).length := by
  have hlen : (selector ++ "_").length = selector.length+1 := by
    rw [String.length_append]
    rfl
  rw [hlen, ← List.countP_eq_length_filter, ← List.countP_eq_length_filter]
  induction scope with
  | nil => cases h
  | cons s scope ih =>
    have hle : scope.countP (fun s => selector.length+1 ≤ s.length) ≤
        scope.countP (fun s => selector.length ≤ s.length) := by
      apply List.countP_mono_left
      intro x _ hx
      simp only [decide_eq_true_eq] at hx ⊢
      omega
    rw [List.countP_cons, List.countP_cons]
    simp only [decide_eq_true_eq]
    cases h with
    | head => split <;> split <;> omega
    | tail _ h =>
      have := ih h
      split <;> split <;> omega

/-- The loop that appends underscores while the name is taken. -/
def freshSelector (scope : List String) (selector : String) : String :=
  if selector ∈ scope then freshSelector scope (selector ++ "_") else selector
termination_by (scope.filter fun s => selector.length ≤ s.length).length
decreasing_by exact filter_longer_lt ‹_›

theorem freshSelector_fresh (scope : List String) (selector : String) :
    freshSelector scope selector ∉ scope := by
  induction selector using freshSelector.induct scope with
  | case1 selector h ih =>
    rw [freshSelector, if_pos h]
    exact ih
  | case2 selector h =>
    rw [freshSelector, if_neg h]
    exact h

mutual

def emitStmt : SourceStmt target σ → EmitScope → CxxStmt target σ × EmitScope
  | .action run, e => (.action run,e)
  | .construct op first second, e =>
    let (first,e) := emitStmt first e
    let (second,e) := emitStmt second e
    (.construct op first second,e)
  | .caseOf T selector arms, e =>
    let counter := e.caseStmtCounter+1
    let name := freshSelector e.localScope ("tp2cc_case_" ++ toString counter)
    let scopeInserted := name ∉ e.localScope
    let inner : EmitScope :=
      ⟨if scopeInserted then name :: e.localScope else e.localScope,
        Function.update e.localValueTypes name (some T), counter⟩
    let (chain,e) := emitCaseArms name arms inner
    (.block name _ selector chain,
      ⟨if scopeInserted then e.localScope.filter (· ≠ name) else e.localScope,
        Function.update e.localValueTypes name none, e.caseStmtCounter⟩)

def emitCaseArms (name : String) {T : SelectorType} :
    CaseArms target σ T → EmitScope → CxxChain target σ × EmitScope
  | .noElse, e => (.done,e)
  | .elseBranch body, e =>
    let (body,e) := emitStmt body e
    (.body body,e)
  | .arm labels body rest, e =>
    let condition := caseArmCondition e.localValueTypes name labels
    let (body,e) := emitStmt body e
    let (rest,e) := emitCaseArms name rest e
    (.branch condition body rest,e)

end

abbrev CxxEnv := String → Option (Σ s : IntType, Word s)

def CxxComparison.eval (op : BinOp) {s : IntType} (v : Word s) :
    CxxComparison target → Option Bool
  | .bound operation rhs =>
    match binaryToCxx target op operation v rhs.value with
    | .ok (.bool b) => some b
    | _ => none
  | .native _ rhs => some (op.ofOrdering (compare v.val rhs.val))

def CxxCondition.eval (env : CxxEnv) : CxxCondition target → Option Bool
  | .never => some false
  | .compare op name comparison => do
    let ⟨_, v⟩ ← env name
    comparison.eval op v
  | .both a b => do if ← a.eval env then b.eval env else some false
  | .either a b => do if ← a.eval env then some true else b.eval env

mutual

/-- Only `auto` copies are in the environment, and nothing is assigned to them. -/
def CxxStmt.Runs : CxxStmt target σ → CxxEnv → Meaning σ
  | .action run, _ => run
  | .construct op first second, env => op (first.Runs env) (second.Runs env)
  | .block name type init chain, env => fun t t' => ∃ v t₁, init.eval t = some (v,t₁) ∧
      chain.Runs (Function.update env name (some ⟨type, v⟩)) t₁ t'

def CxxChain.Runs : CxxChain target σ → CxxEnv → Meaning σ
  | .done, _ => fun t t' => t' = t
  | .body stmt, env => stmt.Runs env
  | .branch condition stmt rest, env => fun t t' =>
    condition.eval env = some true ∧ stmt.Runs env t t' ∨
      condition.eval env = some false ∧ rest.Runs env t t'

end

def CxxCondition.Reads (name : String) : CxxCondition target → Prop
  | .never => False
  | .compare _ read _ => read = name
  | .both a b => a.Reads name ∨ b.Reads name
  | .either a b => a.Reads name ∨ b.Reads name

mutual

def CxxStmt.Declares (name : String) : CxxStmt target σ → Prop
  | .action _ => False
  | .construct _ first second => first.Declares name ∨ second.Declares name
  | .block declared _ _ chain => declared = name ∨ chain.Declares name

def CxxChain.Declares (name : String) : CxxChain target σ → Prop
  | .done => False
  | .body stmt => stmt.Declares name
  | .branch _ stmt rest => stmt.Declares name ∨ rest.Declares name

end

mutual

/-- The conditions of each block read the copy of this block, and no block inside has a copy of the
same name. -/
def CxxStmt.ReadsOwn : CxxStmt target σ → Prop
  | .action _ => True
  | .construct _ first second => first.ReadsOwn ∧ second.ReadsOwn
  | .block name _ _ chain => chain.ReadsOwn name ∧ ¬chain.Declares name

def CxxChain.ReadsOwn (name : String) : CxxChain target σ → Prop
  | .done => True
  | .body stmt => stmt.ReadsOwn
  | .branch condition stmt rest => (∀ read, condition.Reads read → read = name) ∧ stmt.ReadsOwn ∧
    rest.ReadsOwn name

end

def CaseConstant.val : CaseConstant target T → Int
  | .integer _ _ operand => operand.value.val
  | .ordinal _ value => value.val

def CaseLabel.Matches (v : Int) : CaseLabel target T → Prop
  | .single c => v = c.val
  | .range lo hi => lo.val ≤ v ∧ v ≤ hi.val

instance (v : Int) : (l : CaseLabel target T) → Decidable (l.Matches v)
  | .single _ => inferInstanceAs (Decidable (_ = _))
  | .range _ _ => inferInstanceAs (Decidable (_ ∧ _))

mutual

/-- The selector is evaluated, and the first arm with a label for its value is taken. -/
def SourceStmt.Runs : SourceStmt target σ → Meaning σ
  | .action run => run
  | .construct op first second => op first.Runs second.Runs
  | .caseOf _ selector arms => fun t t' => ∃ v t₁, selector.eval t = some (v,t₁) ∧
      arms.Runs v.val t₁ t'

def CaseArms.Runs {T : SelectorType} : CaseArms target σ T → Int → Meaning σ
  | .noElse, _ => fun t t' => t' = t
  | .elseBranch body, _ => body.Runs
  | .arm labels body rest, v => fun t t' =>
    (∃ l ∈ labels, l.Matches v) ∧ body.Runs t t' ∨
      (¬∃ l ∈ labels, l.Matches v) ∧ rest.Runs v t t'

end

/-- The primitive that arithmetic sees holds the subrange. -/
def SelectorType.Held (target : TargetInfo) : SelectorType → Prop
  | .subrange low high _ p _ _ => (p.intType target).Holds low ∧ (p.intType target).Holds high
  | _ => True

/-- The comparison has a carrier for both types, or the constant folds to a value of the type of the
selector. -/
def CaseConstant.Comparable : CaseConstant target T → Prop
  | .integer p _ operand =>
    ¬UnsignedMeetsSigned target p operand.primitive ∨ operand.fits target p = true
  | .ordinal _ _ => True

def CaseLabel.Comparable : CaseLabel target T → Prop
  | .single c => c.Comparable
  | .range lo hi => lo.Comparable ∧ hi.Comparable

mutual

def SourceStmt.Comparable : SourceStmt target σ → Prop
  | .action _ => True
  | .construct _ first second => first.Comparable ∧ second.Comparable
  | .caseOf T _ arms => T.Held target ∧ arms.Comparable

def CaseArms.Comparable {T : SelectorType} : CaseArms target σ T → Prop
  | .noElse => True
  | .elseBranch body => body.Comparable
  | .arm labels body rest => (∀ l ∈ labels, l.Comparable) ∧ body.Comparable ∧ rest.Comparable

end

section
variable {types : String → Option SelectorType} {name : String} {env : CxxEnv}
  {v : Word (T.carrier target)}

theorem storage_of_held {low high : Int} {storage p : IntegerPrimitive}
    (hs : ordinalIntegerPrimitiveForDomain low high = some storage)
    (hp : subrangeIntegerType low high = some p) (hlow : (p.intType target).Holds low) :
    storage = p := by
  suffices h : ordinalIntegerPrimitiveForDomain low high = subrangeIntegerType low high from
    Option.some.inj (hs.symm.trans (h.trans hp))
  unfold ordinalIntegerPrimitiveForDomain subrangeIntegerType
  unfold subrangeIntegerType at hp
  by_cases hneg : low < 0
  · rw [if_pos hneg] at hp ⊢
    rw [if_pos hneg]
    split_ifs at hp with h₈ h₁₆ h₃₂ <;> obtain ⟨hk, hb, -⟩ := ordinalIntegerPrimitive_spec hp target <;>
      rw [IntegerPrimitive.holds_of_signed hk, hb] at hlow <;>
      simp only [signedMinForBits, signedMaxForBits] at * <;> grind
  · rw [if_neg hneg, if_neg hneg]
    split_ifs <;> rfl

theorem SelectorType.carrier_of_held {T : SelectorType} {p : IntegerPrimitive} (h : T.Held target)
    (hp : T.arithmetic? = some p) :
    T.carrier target = p.intType target ∧ p.family = .integer ∧ p.kind ≠ .currency := by
  cases T with
  | integer q h₁ h₂ =>
    cases hp
    exact ⟨rfl, h₁, h₂⟩
  | subrange low high storage q stored selected =>
    cases hp
    refine ⟨?_, subrangeIntegerType_family selected⟩
    rw [carrier, storage_of_held stored selected h.1]
  | ordinal carrier => cases hp

theorem boundComparison_eval {p : IntegerPrimitive} (h₁ : p.family = .integer)
    (h₂ : p.kind ≠ .currency) {op : BinOp} (hop : op.isComparison = true) (v : Word (p.intType target))
    {operand : Operand target}
    (h : ¬UnsignedMeetsSigned target p operand.primitive ∨ operand.fits target p = true) :
    ∃ bound, bindBinaryOperation target op false ⟨p, none⟩ operand.toOperandInfo = some bound ∧
      (CxxComparison.bound bound operand).eval op v = some (op.compares v.val operand.value.val) := by
  have hsafe : CarrierSafe op (Operand.runtime p h₁ h₂ v) operand := by
    cases h with
    | inl h => exact .inl h
    | inr h => exact .inr (.inl ⟨hop, .inr h⟩)
  obtain ⟨bound, c, hbind, hexact⟩ := bindComparison_exact hop false hsafe
  have hmeaning : binaryToCxx target op bound v operand.value =
      .ok (.bool (op.compares v.val operand.value.val)) := by
    rw [show binaryToCxx target op bound v operand.value = _ from hexact.meaning]
    cases op <;> simp_all [pascalBinary, BinOp.isComparison] <;> rfl
  exact ⟨bound, hbind, by rw [CxxComparison.eval, hmeaning]⟩

theorem caseBinaryCondition_eval (op : BinOp) (hop : op.isComparison = true) (hheld : T.Held target)
    (htypes : types name = some T) (henv : env name = some ⟨_, v⟩) {c : CaseConstant target T}
    (h : c.Comparable) :
    (caseBinaryCondition types name op c).eval env = some (op.compares v.val c.val) := by
  cases c with
  | ordinal isOrdinal value =>
    simp [caseBinaryCondition, CxxCondition.eval, henv, CxxComparison.eval, CaseConstant.val,
      BinOp.ofOrdering_compare]
  | integer p isInteger operand =>
    obtain ⟨hcarrier, h₁, h₂⟩ := SelectorType.carrier_of_held hheld isInteger
    revert v
    rw [hcarrier]
    intro v henv
    obtain ⟨bound, hbind, hmeaning⟩ := boundComparison_eval h₁ h₂ hop v h
    simp [caseBinaryCondition, htypes, isInteger, hbind, CxxCondition.eval, henv, hmeaning,
      CaseConstant.val]

theorem both_eval {a b : CxxCondition target} {x y : Bool} (ha : a.eval env = some x)
    (hb : b.eval env = some y) : (CxxCondition.both a b).eval env = some (x && y) := by
  cases x <;> simp [CxxCondition.eval, ha, hb]

theorem either_eval {a b : CxxCondition target} {x y : Bool} (ha : a.eval env = some x)
    (hb : b.eval env = some y) : (CxxCondition.either a b).eval env = some (x || y) := by
  cases x <;> simp [CxxCondition.eval, ha, hb]

theorem caseLabelCondition_eval (hheld : T.Held target) (htypes : types name = some T)
    (henv : env name = some ⟨_, v⟩)
    {l : CaseLabel target T} (h : l.Comparable) :
    ∃ b, (caseLabelCondition types name l).eval env = some b ∧ (b = true ↔ l.Matches v.val) := by
  cases l with
  | single c =>
    refine ⟨_, caseBinaryCondition_eval .eq rfl hheld htypes henv h, ?_⟩
    simp [BinOp.compares, CaseLabel.Matches]
  | range lo hi =>
    have hlo := caseBinaryCondition_eval .gtEq rfl hheld htypes henv h.1
    have hhi := caseBinaryCondition_eval .ltEq rfl hheld htypes henv h.2
    refine ⟨_, both_eval hlo hhi, ?_⟩
    simp [BinOp.compares, CaseLabel.Matches]

theorem eitherConditions_eval (hheld : T.Held target) (htypes : types name = some T)
    (henv : env name = some ⟨_, v⟩) {ls : List (CaseLabel target T)} (h : ∀ l ∈ ls, l.Comparable) {out : CxxCondition target}
    {x : Bool} (hout : out.eval env = some x) :
    ∃ b, (ls.foldl (fun out l => .either out (caseLabelCondition types name l)) out).eval env =
      some b ∧ (b = true ↔ x = true ∨ ∃ l ∈ ls, l.Matches v.val) := by
  induction ls generalizing out x with
  | nil => exact ⟨x, hout, by simp⟩
  | cons l ls ih =>
    obtain ⟨y, hy, hl⟩ := caseLabelCondition_eval hheld htypes henv (h l List.mem_cons_self)
    obtain ⟨b, hb, hls⟩ := ih (fun l hl => h l (List.mem_cons_of_mem _ hl)) (either_eval hout hy)
    refine ⟨b, hb, ?_⟩
    rw [hls, Bool.or_eq_true, hl, List.exists_mem_cons_iff, or_assoc]

theorem caseArmCondition_eval (hheld : T.Held target) (htypes : types name = some T)
    (henv : env name = some ⟨_, v⟩) {labels : List (CaseLabel target T)} (h : ∀ l ∈ labels, l.Comparable) :
    ∃ b, (caseArmCondition types name labels).eval env = some b ∧
      (b = true ↔ ∃ l ∈ labels, l.Matches v.val) := by
  cases labels with
  | nil => exact ⟨false, rfl, by simp⟩
  | cons l ls =>
    obtain ⟨y, hy, hl⟩ := caseLabelCondition_eval hheld htypes henv (h l List.mem_cons_self)
    obtain ⟨b, hb, hls⟩ :=
      eitherConditions_eval hheld htypes henv (fun l hl => h l (List.mem_cons_of_mem _ hl)) hy
    refine ⟨b, hb, ?_⟩
    rw [hls, hl, List.exists_mem_cons_iff]

end

def EmitScope.Keeps (e e' : EmitScope) : Prop :=
  ∀ name ∈ e.localScope, name ∈ e'.localScope ∧
    e'.localValueTypes name = e.localValueTypes name

theorem EmitScope.Keeps.refl (e : EmitScope) : e.Keeps e := fun _ h => ⟨h, rfl⟩

theorem EmitScope.Keeps.trans {e e' e'' : EmitScope} (h : e.Keeps e') (h' : e'.Keeps e'') :
    e.Keeps e'' := by
  intro name hname
  obtain ⟨hmem, htype⟩ := h name hname
  obtain ⟨hmem', htype'⟩ := h' name hmem
  exact ⟨hmem', htype'.trans htype⟩

def EmitScope.enter (e : EmitScope) (T : SelectorType) (name : String) : EmitScope :=
  ⟨name :: e.localScope, Function.update e.localValueTypes name (some T), e.caseStmtCounter+1⟩

def EmitScope.leave (e : EmitScope) (name : String) : EmitScope :=
  ⟨e.localScope.filter (· ≠ name), Function.update e.localValueTypes name none, e.caseStmtCounter⟩

def EmitScope.selectorName (e : EmitScope) : String :=
  freshSelector e.localScope ("tp2cc_case_" ++ toString (e.caseStmtCounter+1))

theorem EmitScope.selectorName_fresh (e : EmitScope) : e.selectorName ∉ e.localScope :=
  freshSelector_fresh _ _

theorem emitStmt_caseOf (selector : Effectful σ (Word (T.carrier target)))
    (arms : CaseArms target σ T) (e : EmitScope) :
    emitStmt (.caseOf T selector arms) e =
      (.block e.selectorName _ selector (emitCaseArms e.selectorName arms
        (e.enter T e.selectorName)).1,
        (emitCaseArms e.selectorName arms (e.enter T e.selectorName)).2.leave e.selectorName) := by
  have hfresh := e.selectorName_fresh
  unfold emitStmt
  simp only [EmitScope.selectorName] at hfresh ⊢
  simp only [hfresh, not_false_iff, if_true, EmitScope.enter, EmitScope.leave]

theorem EmitScope.enter_leave_keeps {e e' : EmitScope} (h : (e.enter T e.selectorName).Keeps e') :
    e.Keeps (e'.leave e.selectorName) := by
  intro name hname
  have hne : name ≠ e.selectorName := fun heq => e.selectorName_fresh (heq ▸ hname)
  obtain ⟨hmem, htype⟩ := h name (List.mem_cons_of_mem _ hname)
  constructor
  · simp [leave, hmem, hne]
  · simpa [leave, enter, Function.update_of_ne hne] using htype

mutual

theorem emitStmt_keeps : (s : SourceStmt target σ) → (e : EmitScope) → e.Keeps (emitStmt s e).2
  | .action _, e => .refl e
  | .construct _ first second, e =>
    (emitStmt_keeps first e).trans (emitStmt_keeps second _)
  | .caseOf _ _ arms, e => by
    rw [emitStmt_caseOf]
    exact EmitScope.enter_leave_keeps (emitCaseArms_keeps _ arms _)

theorem emitCaseArms_keeps {T : SelectorType} (name : String) : (arms : CaseArms target σ T) →
    (e : EmitScope) → e.Keeps (emitCaseArms name arms e).2
  | .noElse, e => .refl e
  | .elseBranch body, e => emitStmt_keeps body e
  | .arm _ body rest, e =>
    (emitStmt_keeps body e).trans (emitCaseArms_keeps name rest _)

end

mutual

theorem emitStmt_declares {name : String} : (s : SourceStmt target σ) → (e : EmitScope) →
    name ∈ e.localScope → ¬(emitStmt s e).1.Declares name
  | .action _, _, _ => id
  | .construct _ first second, e, h => by
    rintro (hfirst | hsecond)
    · exact emitStmt_declares first e h hfirst
    · exact emitStmt_declares second _ (emitStmt_keeps first e name h).1 hsecond
  | .caseOf T _ arms, e, h => by
    rw [emitStmt_caseOf]
    rintro (hname | hchain)
    · exact e.selectorName_fresh (hname ▸ h)
    · exact emitCaseArms_declares _ arms _ (List.mem_cons_of_mem _ h) hchain

theorem emitCaseArms_declares {T : SelectorType} {name : String} (own : String) :
    (arms : CaseArms target σ T) → (e : EmitScope) → name ∈ e.localScope →
    ¬(emitCaseArms own arms e).1.Declares name
  | .noElse, _, _ => id
  | .elseBranch body, e, h => emitStmt_declares body e h
  | .arm _ body rest, e, h => by
    rintro (hbody | hrest)
    · exact emitStmt_declares body e h hbody
    · exact emitCaseArms_declares own rest _ (emitStmt_keeps body e name h).1 hrest

end

theorem caseBinaryCondition_reads {types : String → Option SelectorType} {name read : String}
    {op : BinOp} {c : CaseConstant target T}
    (h : (caseBinaryCondition types name op c).Reads read) : read = name := by
  unfold caseBinaryCondition at h
  split at h
  · split at h
    · split at h <;> exact h.symm
    · exact h.symm
  · exact h.symm

theorem caseLabelCondition_reads {types : String → Option SelectorType} {name read : String}
    {l : CaseLabel target T} (h : (caseLabelCondition types name l).Reads read) : read = name := by
  cases l with
  | single c => exact caseBinaryCondition_reads h
  | range lo hi =>
    cases h with
    | inl h => exact caseBinaryCondition_reads h
    | inr h => exact caseBinaryCondition_reads h

theorem caseArmCondition_reads {types : String → Option SelectorType} {name read : String}
    {labels : List (CaseLabel target T)} (h : (caseArmCondition types name labels).Reads read) :
    read = name := by
  have key (ls : List (CaseLabel target T)) (out : CxxCondition target)
      (hout : out.Reads read → read = name) :
      (ls.foldl (fun out l => .either out (caseLabelCondition types name l)) out).Reads read →
        read = name := by
    induction ls generalizing out with
    | nil => exact hout
    | cons l ls ih =>
      apply ih
      rintro (h | h)
      · exact hout h
      · exact caseLabelCondition_reads h
  cases labels with
  | nil => cases h
  | cons l ls => exact key ls _ caseLabelCondition_reads h

mutual

theorem emitStmt_readsOwn : (s : SourceStmt target σ) → (e : EmitScope) → (emitStmt s e).1.ReadsOwn
  | .action _, _ => trivial
  | .construct _ first second, e => ⟨emitStmt_readsOwn first e, emitStmt_readsOwn second _⟩
  | .caseOf T _ arms, e => by
    rw [emitStmt_caseOf]
    exact ⟨emitCaseArms_readsOwn _ arms _, emitCaseArms_declares _ arms _ List.mem_cons_self⟩

theorem emitCaseArms_readsOwn {T : SelectorType} (name : String) : (arms : CaseArms target σ T) →
    (e : EmitScope) → (emitCaseArms name arms e).1.ReadsOwn name
  | .noElse, _ => trivial
  | .elseBranch body, e => emitStmt_readsOwn body e
  | .arm _ body rest, e => ⟨fun _ h => caseArmCondition_reads h, emitStmt_readsOwn body e,
    emitCaseArms_readsOwn name rest _⟩

end

mutual

theorem emitStmt_runs : (s : SourceStmt target σ) → s.Comparable → (e : EmitScope) →
    (env : CxxEnv) → (emitStmt s e).1.Runs env = s.Runs
  | .action _, _, _, _ => rfl
  | .construct op first second, h, e, env => by
    have hfirst := emitStmt_runs first h.1 e env
    have hsecond := emitStmt_runs second h.2 (emitStmt first e).2 env
    exact congrArg₂ op hfirst hsecond
  | .caseOf T selector arms, h, e, env => by
    rw [emitStmt_caseOf]
    funext t t'
    apply propext
    apply exists_congr
    intro v
    apply exists_congr
    intro t₁
    apply and_congr_right
    intro _
    rw [emitCaseArms_runs arms h.1 h.2 (e.enter T e.selectorName) (List.mem_cons_self)
      (Function.update_self ..) (Function.update_self ..)]

theorem emitCaseArms_runs {T : SelectorType} {name : String} {env : CxxEnv}
    {v : Word (T.carrier target)} : (arms : CaseArms target σ T) → T.Held target → arms.Comparable →
    (e : EmitScope) → name ∈ e.localScope → e.localValueTypes name = some T →
    env name = some ⟨_, v⟩ → (emitCaseArms name arms e).1.Runs env = arms.Runs v.val
  | .noElse, _, _, _, _, _, _ => rfl
  | .elseBranch body, _, h, e, _, _, _ => emitStmt_runs body h e env
  | .arm labels body rest, hheld, h, e, hname, htypes, henv => by
    have hbody := emitStmt_runs body h.2.1 e env
    obtain ⟨hname', htypes'⟩ := emitStmt_keeps body e name hname
    have hrest := emitCaseArms_runs rest hheld h.2.2 (emitStmt body e).2 hname' (htypes'.trans htypes) henv
    obtain ⟨b, hb, hlabels⟩ := caseArmCondition_eval hheld htypes henv h.1
    funext t t'
    apply propext
    have hchain : (emitCaseArms name (.arm labels body rest) e).1.Runs env t t' ↔
        b = true ∧ (emitStmt body e).1.Runs env t t' ∨
          b = false ∧ (emitCaseArms name rest (emitStmt body e).2).1.Runs env t t' := by
      change (caseArmCondition e.localValueTypes name labels).eval env = some true ∧ _ ∨
        (caseArmCondition e.localValueTypes name labels).eval env = some false ∧ _ ↔ _
      rw [hb, Option.some_inj, Option.some_inj]
    rw [hchain, hbody, hrest, ← Bool.not_eq_true, hlabels]
    exact Iff.rfl

end

/-- The chain of conditions does what the case statement says, and none of the copies of selectors
gets in the way of another one. -/
theorem emitStmt_exact (s : SourceStmt target σ) (e : EmitScope) (h : s.Comparable) :
    (∀ env t t', (emitStmt s e).1.Runs env t t' ↔ s.Runs t t') ∧ (emitStmt s e).1.ReadsOwn := by
  constructor
  · intro env t t'
    rw [emitStmt_runs s h e env]
  · exact emitStmt_readsOwn s e

end

theorem qWord_family : IntegerPrimitive.family ⟨.qWord, PrimitiveKind.qWord_integer⟩ = .integer := rfl
theorem int64_family : IntegerPrimitive.family ⟨.int64, PrimitiveKind.int64_integer⟩ = .integer := rfl
theorem qWord_notCurrency : PrimitiveKind.qWord ≠ .currency := by decide
theorem int64_notCurrency : PrimitiveKind.int64 ≠ .currency := by decide

abbrev cxx64 : TargetInfo := ⟨64, TargetInfo.sixtyFour⟩

def int64Selector : SelectorType :=
  .integer ⟨.int64, PrimitiveKind.int64_integer⟩ int64_family int64_notCurrency

def lowInt64 : Operand cxx64 :=
  .runtime ⟨.int64, PrimitiveKind.int64_integer⟩ int64_family int64_notCurrency (.ofInt _ (-2^63))

def behindInt64Info : ConstIntExprInfo := ⟨.ofInt _ (2^63), .ofInt _ (2^63), some .qWord⟩

theorem behindInt64_folds (c : ConstIntExprInfo) (h : some behindInt64Info = some c) :
    c.Readable ∧ c.denote = (Word.ofInt (IntegerPrimitive.intType ⟨.qWord, PrimitiveKind.qWord_integer⟩ cxx64)
      (2^63)).val := by
  cases h
  exact ⟨⟨rfl, by decide, fun _ => rfl⟩, rfl⟩

def behindInt64 : Operand cxx64 :=
  ⟨⟨⟨.qWord, PrimitiveKind.qWord_integer⟩, some behindInt64Info⟩, qWord_family, qWord_notCurrency,
    .ofInt _ (2^63), behindInt64_folds⟩

def behindLabels : List (CaseLabel cxx64 int64Selector) := [.single (.integer _ rfl behindInt64)]

/-- `case low(int64) of 9223372036854775808: x := 1; end` -/
def caseOfBehind : SourceStmt cxx64 Int :=
  .caseOf int64Selector (.const (.ofInt _ (-2^63)))
    (.arm behindLabels (.action fun t t' => t' = ⟨1, t.log⟩) .noElse)

def emptyScope : EmitScope := ⟨[], fun _ => none, 0⟩

/-- `case f(x) of low(int64)..low(int64): case c of 'a': x := 1; else x := 2; end; end` -/
def nestedCase (c : Word ⟨false, 8, IntType.eight_pos⟩) : SourceStmt cxx64 Int :=
  .caseOf int64Selector (.code 0 fun x => some (.ofInt _ x,x))
    (.arm [.range (.integer _ rfl lowInt64) (.integer _ rfl lowInt64)]
      (.caseOf (.ordinal _) (.const c)
        (.arm [.single (.ordinal rfl (.ofInt _ 97))] (.action fun t t' => t' = ⟨1, t.log⟩)
          (.elseBranch (.action fun t t' => t' = ⟨2, t.log⟩)))) .noElse)

theorem lowLabel_comparable (l : CaseLabel cxx64 int64Selector)
    (h : l ∈ [.range (.integer _ rfl lowInt64) (.integer _ rfl lowInt64)]) : l.Comparable := by
  cases List.mem_singleton.mp h
  exact ⟨.inl (by decide), .inl (by decide)⟩

theorem charLabel_comparable (l : CaseLabel cxx64 (.ordinal ⟨false, 8, IntType.eight_pos⟩))
    (h : l ∈ [.single (.ordinal rfl (.ofInt _ 97))]) : l.Comparable := by
  cases List.mem_singleton.mp h
  trivial

theorem emitStmt_nestedCase :
    (∀ env t t', (emitStmt (nestedCase (.ofInt _ 97)) emptyScope).1.Runs env t t' ↔
      (nestedCase (.ofInt _ 97)).Runs t t') ∧
        (emitStmt (nestedCase (.ofInt _ 97)) emptyScope).1.ReadsOwn :=
  emitStmt_exact (nestedCase (.ofInt _ 97)) emptyScope
    ⟨trivial, lowLabel_comparable, ⟨trivial, charLabel_comparable, trivial, trivial⟩, trivial⟩

theorem emitStmt_caseOfBehind :
    (emitStmt caseOfBehind emptyScope).1.Runs (fun _ => none) ⟨0, []⟩ ⟨1, []⟩ ∧
      ¬caseOfBehind.Runs ⟨0, []⟩ ⟨1, []⟩ := by
  constructor
  · rw [caseOfBehind, emitStmt_caseOf]
    refine ⟨.ofInt _ (-2^63), _, rfl, .inl ⟨?_, rfl⟩⟩
    have hbind : bindBinaryOperation cxx64 .eq false ⟨⟨.int64, PrimitiveKind.int64_integer⟩, none⟩
        behindInt64.toOperandInfo = some ⟨.integerCompare, ⟨.int64, PrimitiveKind.int64_integer⟩,
          ⟨.int64, PrimitiveKind.int64_integer⟩, .boolean, false, none⟩ := by decide
    have hcondition : caseArmCondition (emptyScope.enter int64Selector
        emptyScope.selectorName).localValueTypes emptyScope.selectorName behindLabels =
          .compare .eq emptyScope.selectorName (.bound ⟨.integerCompare, ⟨.int64, PrimitiveKind.int64_integer⟩,
            ⟨.int64, PrimitiveKind.int64_integer⟩, .boolean, false, none⟩ behindInt64) := by
      simp only [behindLabels, caseArmCondition, caseLabelCondition, caseBinaryCondition,
        EmitScope.enter, Function.update_self, Option.bind_some, int64Selector,
        SelectorType.arithmetic?, hbind, List.foldl_nil]
    change (caseArmCondition (emptyScope.enter int64Selector
      emptyScope.selectorName).localValueTypes emptyScope.selectorName behindLabels).eval _ =
        some true
    rw [hcondition, CxxCondition.eval, Function.update_self]
    decide
  · rintro ⟨v, t₁, hv, hrun⟩
    cases hv
    cases hrun with
    | inl hrun =>
      obtain ⟨l, hl, hmatch⟩ := hrun.1
      cases List.mem_singleton.mp hl
      exact absurd hmatch (by decide)
    | inr hrun => exact absurd hrun.2 (by simp [CaseArms.Runs])

end Tp2cc
