import Tp2cc.Parser.Expr

/-! Expressions as trees, and their text with the parentheses that the precedence of Object
Pascal asks for and no others. -/
set_option autoImplicit false

namespace Tp2cc

mutual

inductive ExprTree where
  | ident (name : String)
  | intLit (value : Nat)
  | realLit (text : String)
  | stringLit (value : String)
  | nilLit
  | boolLit (value : Bool)
  | binary (op : BinOp) (lhs rhs : ExprTree)
  | unary (op : UnOp) (operand : ExprTree)
  | call (callee : ExprTree) (args : ArgTrees)
  | index (base first : ExprTree) (others : IndexTrees)
  | member (base : ExprTree) (name : String)
  | deref (operand : ExprTree)
  | addrOf (doubleAddr : Bool) (operand : ExprTree)
  | setLit (elements : ElementTrees)

inductive ArgTrees where
  | nil
  | cons (arg : ExprTree) (format : FormatTree) (rest : ArgTrees)

inductive FormatTree where
  | plain
  | width (w : ExprTree)
  | precision (w p : ExprTree)

inductive IndexTrees where
  | nil
  | cons (index : ExprTree) (rest : IndexTrees)

inductive ElementTrees where
  | nil
  | single (element : ExprTree) (rest : ElementTrees)
  | range (lo hi : ExprTree) (rest : ElementTrees)

end

def callOf (callee : Expr) (args : List CallArg) : Expr :=
  .call callee (args.map (·.arg)) (args.map (·.width)) (args.map (·.precision)) false false

/-! The tree as the parser builds it, every check switch off. -/
section

mutual

def ExprTree.expr : ExprTree → Expr
  | .ident name => .ident name
  | .intLit v => .intLit v
  | .realLit text => .realLit text
  | .stringLit v => .stringLit v
  | .nilLit => .nilLit
  | .boolLit b => .boolLit b
  | .binary op l r => .binary op l.expr r.expr false
  | .unary op x => .unary op x.expr false
  | .call callee args => callOf callee.expr args.exprs
  | .index base first others => .index base.expr (first.expr :: others.exprs)
  | .member base name => .member base.expr name
  | .deref x => .deref x.expr
  | .addrOf double x => .addrOf double x.expr
  | .setLit elements => .setLit elements.exprs

def ArgTrees.exprs : ArgTrees → List CallArg
  | .nil => []
  | .cons arg format rest => format.expr arg.expr :: rest.exprs

def FormatTree.expr (arg : Expr) : FormatTree → CallArg
  | .plain => ⟨arg, none, none⟩
  | .width w => ⟨arg, some w.expr, none⟩
  | .precision w p => ⟨arg, some w.expr, some p.expr⟩

def IndexTrees.exprs : IndexTrees → List Expr
  | .nil => []
  | .cons i rest => i.expr :: rest.exprs

def ElementTrees.exprs : ElementTrees → List Expr
  | .nil => []
  | .single e rest => e.expr :: rest.exprs
  | .range lo hi rest => .range lo.expr hi.expr :: rest.exprs

end
end

/-! Trees up to the check switches, which directives set and no operator does. -/
section

mutual

def Expr.unchecked : Expr → Expr
  | .ident name => .ident name
  | .intLit v => .intLit v
  | .realLit text => .realLit text
  | .stringLit v => .stringLit v
  | .nilLit => .nilLit
  | .boolLit b => .boolLit b
  | .binary op l r _ => .binary op l.unchecked r.unchecked false
  | .unary op x _ => .unary op x.unchecked false
  | .call callee args width precision _ _ => .call callee.unchecked (uncheckedList args)
      (uncheckedOptions width) (uncheckedOptions precision) false false
  | .index base indices => .index base.unchecked (uncheckedList indices)
  | .member base name => .member base.unchecked name
  | .deref x => .deref x.unchecked
  | .addrOf double x => .addrOf double x.unchecked
  | .setLit elements => .setLit (uncheckedList elements)
  | .range lo hi => .range lo.unchecked hi.unchecked
  | .arrayConst elements => .arrayConst (uncheckedList elements)
  | .recordConst fields => .recordConst (uncheckedFields fields)

def uncheckedList : List Expr → List Expr
  | [] => []
  | e :: es => e.unchecked :: uncheckedList es

def uncheckedOption : Option Expr → Option Expr
  | none => none
  | some e => some e.unchecked

def uncheckedOptions : List (Option Expr) → List (Option Expr)
  | [] => []
  | e :: es => uncheckedOption e :: uncheckedOptions es

def uncheckedField : String × Expr → String × Expr
  | (name, e) => (name, e.unchecked)

def uncheckedFields : List (String × Expr) → List (String × Expr)
  | [] => []
  | f :: fs => uncheckedField f :: uncheckedFields fs

end

def CallArg.unchecked (a : CallArg) : CallArg :=
  ⟨a.arg.unchecked, uncheckedOption a.width, uncheckedOption a.precision⟩

theorem uncheckedList_eq (es : List Expr) : uncheckedList es = es.map (·.unchecked) := by
  induction es with
  | nil => rfl
  | cons e es ih => rw [uncheckedList, ih, List.map_cons]

theorem uncheckedOptions_eq (es : List (Option Expr)) :
    uncheckedOptions es = es.map uncheckedOption := by
  induction es with
  | nil => rfl
  | cons e es ih => rw [uncheckedOptions, ih, List.map_cons]

theorem unchecked_index (base : Expr) (indices : List Expr) :
    (Expr.index base indices).unchecked = .index base.unchecked (indices.map (·.unchecked)) := by
  rw [Expr.unchecked, uncheckedList_eq]

theorem unchecked_setLit (elements : List Expr) :
    (Expr.setLit elements).unchecked = .setLit (elements.map (·.unchecked)) := by
  rw [Expr.unchecked, uncheckedList_eq]

theorem unchecked_call (callee : Expr) (args : List CallArg) (q r : Bool) :
    (Expr.call callee (args.map (·.arg)) (args.map (·.width)) (args.map (·.precision)) q
      r).unchecked = callOf callee.unchecked (args.map (·.unchecked)) := by
  simp only [Expr.unchecked, uncheckedList_eq, uncheckedOptions_eq, callOf, List.map_map,
    Function.comp_def, CallArg.unchecked]

end

def BinOp.tok : BinOp → Tok
  | .add => .plus
  | .sub => .minus
  | .mul => .star
  | .realDiv => .slash
  | .intDiv => .kwDiv
  | .mod => .kwMod
  | .shl => .kwShl
  | .shr => .kwShr
  | .and => .kwAnd
  | .or => .kwOr
  | .xor => .kwXor
  | .eq => .eq
  | .notEq => .notEq
  | .lt => .lt
  | .gt => .gt
  | .ltEq => .ltEq
  | .gtEq => .gtEq
  | .in => .kwIn
  | .is => .kwIs
  | .as => .kwAs
  | .symDiff => .symDiff

def UnOp.tok : UnOp → Tok
  | .neg => .minus
  | .plus => .plus
  | .not => .kwNot

/-- The levels of precedence: 1 for the relational operators, 2 for the additive and 3 for the
multiplicative ones, 4 for what stands before its operand, 5 for the rest. -/
def BinOp.level : BinOp → Nat
  | .eq | .notEq | .lt | .gt | .ltEq | .gtEq | .in | .is => 1
  | .add | .sub | .or | .xor | .symDiff => 2
  | .mul | .realDiv | .intDiv | .mod | .and | .shl | .shr | .as => 3

inductive Lexeme where
  | ident (name : String)
  | self (name : String)
  | intLit (value : Nat)
  | realLit (text : String)
  | stringLit (value : String)
  | mark (kind : Tok)
  deriving DecidableEq

def Lexeme.kind : Lexeme → Tok
  | .ident _ => .ident
  | .self _ => .kwSelf
  | .intLit _ => .intLit
  | .realLit _ => .realLit
  | .stringLit _ => .stringLit
  | .mark kind => kind

def Token.lexeme (t : Token) : Lexeme :=
  match t.kind with
  | .ident => .ident t.text
  | .kwSelf => .self t.text
  | .intLit => .intLit t.intValue
  | .realLit => .realLit t.text
  | .stringLit => .stringLit t.text
  | kind => .mark kind

/-- `self` is an identifier with a token of its own. -/
def nameLexeme (name : String) : Lexeme := if name = "self" then .self name else .ident name

def parenthesise (L : List Lexeme) : List Lexeme := .mark .lParen :: L ++ [.mark .rParen]

def withCommas (items : List (List Lexeme)) : List Lexeme := [.mark .comma].intercalate items

mutual

/-- The text of the tree where nothing below the level may stand without parentheses. -/
def ExprTree.print (level : Nat) : ExprTree → List Lexeme
  | .ident name => [nameLexeme name]
  | .intLit v => [.intLit v]
  | .realLit text => [.realLit text]
  | .stringLit v => [.stringLit v]
  | .nilLit => [.mark .kwNil]
  | .boolLit b => [.mark (if b then .kwTrue else .kwFalse)]
  | .binary op l r =>
    let text := l.print op.level ++ .mark op.tok :: r.print (op.level+1)
    if op.level < level then parenthesise text else text
  | .unary op x =>
    let text := .mark op.tok :: x.print 4
    if 4 < level then parenthesise text else text
  | .call callee args => callee.print 5 ++ parenthesise (withCommas args.prints)
  | .index base first others =>
    base.print 5 ++ .mark .lBrack :: withCommas (first.print 1 :: others.prints) ++ [.mark .rBrack]
  | .member base name => base.print 5 ++ [.mark .dot, .ident name]
  | .deref x => x.print 5 ++ [.mark .caret]
  | .addrOf double x =>
    let text := .mark (if double then .atAt else .atSign) :: x.print 4
    if 4 < level then parenthesise text else text
  | .setLit elements => .mark .lBrack :: withCommas elements.prints ++ [.mark .rBrack]

def ArgTrees.prints : ArgTrees → List (List Lexeme)
  | .nil => []
  | .cons arg format rest => (arg.print 1 ++ format.print) :: rest.prints

def FormatTree.print : FormatTree → List Lexeme
  | .plain => []
  | .width w => .mark .colon :: w.print 1
  | .precision w p => .mark .colon :: w.print 1 ++ .mark .colon :: p.print 1

def IndexTrees.prints : IndexTrees → List (List Lexeme)
  | .nil => []
  | .cons i rest => i.print 1 :: rest.prints

def ElementTrees.prints : ElementTrees → List (List Lexeme)
  | .nil => []
  | .single e rest => e.print 1 :: rest.prints
  | .range lo hi rest => (lo.print 1 ++ .mark .dotDot :: hi.print 1) :: rest.prints

end

/-- `(a-b)-c`, `a-(b-c)` and `(a+b)*-c`. -/
example : (ExprTree.binary .sub (.binary .sub (.ident "a") (.ident "b")) (.ident "c")).print 1 =
      [.ident "a", .mark .minus, .ident "b", .mark .minus, .ident "c"] ∧
    (ExprTree.binary .sub (.ident "a") (.binary .sub (.ident "b") (.ident "c"))).print 1 =
      [.ident "a", .mark .minus, .mark .lParen, .ident "b", .mark .minus, .ident "c",
        .mark .rParen] ∧
    (ExprTree.binary .mul (.binary .add (.ident "a") (.ident "b")) (.unary .neg (.ident "c"))).print
        1 =
      [.mark .lParen, .ident "a", .mark .plus, .ident "b", .mark .rParen, .mark .star,
        .mark .minus, .ident "c"] := by decide

@[simp] theorem lexeme_kind (t : Token) : t.lexeme.kind = t.kind := by
  unfold Token.lexeme
  split <;> simp_all [Lexeme.kind]

end Tp2cc
