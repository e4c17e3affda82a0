import Tp2cc.Parser.ExprTree
import Tp2cc.Parser.Unit
import Tp2cc.Parsing.Chain
import Mathlib.Data.List.Forall2

/-! The tree that the parser's grammar finds in the text of an expression: its relational
operators are the loosest, whatever tree the text was made from. -/
set_option autoImplicit false

namespace Tp2cc
open Machine Parsing

abbrev TermChain := Chain BinOp Expr
abbrev SimpleChain := Chain BinOp TermChain
abbrev Phrase := Chain BinOp SimpleChain

def node (op : BinOp) (l r : Expr) : Expr := .binary op l r false

def termExpr (c : TermChain) : Expr := c.fold id node
def simpleExpr (c : SimpleChain) : Expr := c.fold termExpr node
def phraseExpr (c : Phrase) : Expr := c.fold simpleExpr node

def factorPhrase (e : Expr) : Phrase := .one (.one (.one e))

@[simp] theorem phraseExpr_factor (e : Expr) : phraseExpr (factorPhrase e) = e := rfl

def glue (op : BinOp) (c d : Phrase) : Phrase :=
  if (relationalOperator op.tok).isSome then .append op c d
  else if (additiveOperator op.tok).isSome then .join (.append op) c d
  else .join (.join (.append op)) c d

mutual

def ExprTree.phrase (level : Nat) : ExprTree → Phrase
  | .binary op l r =>
    let c := glue op (l.phrase op.level) (r.phrase (op.level+1))
    if op.level < level then factorPhrase (phraseExpr c) else c
  | .unary op x => factorPhrase (.unary op (phraseExpr (x.phrase 4)) false)
  | .addrOf double x => factorPhrase (.addrOf double (phraseExpr (x.phrase 4)))
  | .call callee args => factorPhrase (callOf (phraseExpr (callee.phrase 5)) args.readings)
  | .index base first others =>
    factorPhrase (.index (phraseExpr (base.phrase 5)) (phraseExpr (first.phrase 1) :: others.readings))
  | .member base name => factorPhrase (.member (phraseExpr (base.phrase 5)) name)
  | .deref x => factorPhrase (.deref (phraseExpr (x.phrase 5)))
  | .setLit elements => factorPhrase (.setLit elements.readings)
  | .ident name => factorPhrase (.ident name)
  | .intLit v => factorPhrase (.intLit v)
  | .realLit text => factorPhrase (.realLit text)
  | .stringLit v => factorPhrase (.stringLit v)
  | .nilLit => factorPhrase .nilLit
  | .boolLit b => factorPhrase (.boolLit b)

def ArgTrees.readings : ArgTrees → List CallArg
  | .nil => []
  | .cons arg format rest => format.reading (phraseExpr (arg.phrase 1)) :: rest.readings

def FormatTree.reading (arg : Expr) : FormatTree → CallArg
  | .plain => ⟨arg, none, none⟩
  | .width w => ⟨arg, some (phraseExpr (w.phrase 1)), none⟩
  | .precision w p => ⟨arg, some (phraseExpr (w.phrase 1)), some (phraseExpr (p.phrase 1))⟩

def IndexTrees.readings : IndexTrees → List Expr
  | .nil => []
  | .cons i rest => phraseExpr (i.phrase 1) :: rest.readings

def ElementTrees.readings : ElementTrees → List Expr
  | .nil => []
  | .single e rest => phraseExpr (e.phrase 1) :: rest.readings
  | .range lo hi rest =>
    .range (phraseExpr (lo.phrase 1)) (phraseExpr (hi.phrase 1)) :: rest.readings

end

/-- The tree that the parser makes of the text of the tree. -/
def ExprTree.reading (t : ExprTree) : Expr := phraseExpr (t.phrase 1)

theorem phraseExpr_phrase (t : ExprTree) (level : Nat) :
    phraseExpr (t.phrase level) = t.reading := by
  unfold ExprTree.reading
  cases t with
  | binary op l r =>
    simp only [ExprTree.phrase]
    split <;> split <;> rfl
  | _ => rfl

section
variable {x base callee first : ExprTree}

@[simp] theorem reading_unary (op : UnOp) :
    (ExprTree.unary op x).reading = .unary op x.reading false := by
  rw [← phraseExpr_phrase x 4]
  rfl

@[simp] theorem reading_addrOf (double : Bool) :
    (ExprTree.addrOf double x).reading = .addrOf double x.reading := by
  rw [← phraseExpr_phrase x 4]
  rfl

@[simp] theorem reading_call (args : ArgTrees) :
    (ExprTree.call callee args).reading = callOf callee.reading args.readings := by
  rw [← phraseExpr_phrase callee 5]
  rfl

@[simp] theorem reading_index (others : IndexTrees) :
    (ExprTree.index base first others).reading =
      .index base.reading (first.reading :: others.readings) := by
  rw [← phraseExpr_phrase base 5]
  rfl

@[simp] theorem reading_member (name : String) :
    (ExprTree.member base name).reading = .member base.reading name := by
  rw [← phraseExpr_phrase base 5]
  rfl

@[simp] theorem reading_deref : (ExprTree.deref x).reading = .deref x.reading := by
  rw [← phraseExpr_phrase x 5]
  rfl

@[simp] theorem reading_setLit (elements : ElementTrees) :
    (ExprTree.setLit elements).reading = .setLit elements.readings := rfl

end
end Tp2cc
