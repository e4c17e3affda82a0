import Tp2cc.Parser.Stmt
import Tp2cc.Parser.ExprTree

/-! Statements as trees, their text, and the tokens that the text may stand before. -/
set_option autoImplicit false

namespace Tp2cc

mutual

inductive StmtTree where
  | compound (body : StmtTrees)
  | assign (target value : ExprTree)
  | exprStmt (expr : ExprTree)
  | ifThen (cond : ExprTree) (thenBranch : StmtTree)
  | ifElse (cond : ExprTree) (thenBranch elseBranch : StmtTree)
  | whileStmt (cond : ExprTree) (body : StmtTree)
  | repeatStmt (body : StmtTrees) (cond : ExprTree)
  | forTo (var : String) (start stop : ExprTree) (downto : Bool) (body : StmtTree)
  | forIn (var : String) (inExpr : ExprTree) (body : StmtTree)
  | caseOf (selector : ExprTree) (arms : ArmTrees)
  | caseElse (selector : ExprTree) (arms : ArmTrees) (otherwise : Bool) (elseBranch : StmtTrees)
  | withStmt (first : ExprTree) (others : IndexTrees) (body : StmtTree)
  | goto (label : String)
  | labeled (label : String) (body : StmtTree)
  | emptyStmt
  | asmStmt (code : List Lexeme)
  | tryFinally (body finallyBody : StmtTrees)
  | tryExcept (body exceptElse : StmtTrees)
  | tryOn (body : StmtTrees) (handlers : HandlerTrees)
  | tryOnElse (body : StmtTrees) (handlers : HandlerTrees) (exceptElse : StmtTrees)
  | reraise
  | raise (value : ExprTree)

inductive StmtTrees where
  | nil
  | cons (stmt : StmtTree) (rest : StmtTrees)

inductive ArmTrees where
  | nil
  | cons (labels : ElementTrees) (body : StmtTree) (rest : ArmTrees)

/-- The handlers of one `except`, of which there is at least one. -/
inductive HandlerTrees where
  | last (var : Option String) (className : String) (body : StmtTree)
  | cons (var : Option String) (className : String) (body : StmtTree) (rest : HandlerTrees)

end

/-! The tree as the syntax tree has it, with the given reading of its expressions. -/
section

structure Readings where
  expr : ExprTree → Expr
  exprs : IndexTrees → List Expr
  elements : ElementTrees → List Expr

variable (f : Readings)

mutual

def StmtTree.stmt : StmtTree → Stmt
  | .compound body => .compound body.stmts
  | .assign target value => .assign (f.expr target) (f.expr value) false
  | .exprStmt e => .exprStmt (f.expr e)
  | .ifThen cond t => .ifStmt (f.expr cond) t.stmt none
  | .ifElse cond t e => .ifStmt (f.expr cond) t.stmt (some e.stmt)
  | .whileStmt cond body => .whileStmt (f.expr cond) body.stmt
  | .repeatStmt body cond => .repeatStmt body.stmts (f.expr cond)
  | .forTo var start stop downto body => .forTo var (f.expr start) (f.expr stop) downto body.stmt
  | .forIn var inExpr body => .forIn var (f.expr inExpr) body.stmt
  | .caseOf selector arms => .caseStmt (f.expr selector) arms.arms none
  | .caseElse selector arms _ e => .caseStmt (f.expr selector) arms.arms (some (.compound e.stmts))
  | .withStmt first others body => .withStmt (f.expr first :: f.exprs others) body.stmt
  | .goto label => .goto label
  | .labeled label body => .labeled label body.stmt
  | .emptyStmt => .emptyStmt
  | .asmStmt _ => .asmStmt
  | .tryFinally body finallyBody => .tryStmt body.stmts true [] none finallyBody.stmts
  | .tryExcept body e => .tryStmt body.stmts false [] (some (.compound e.stmts)) []
  | .tryOn body handlers => .tryStmt body.stmts false handlers.handlers none []
  | .tryOnElse body handlers e =>
    .tryStmt body.stmts false handlers.handlers (some (.compound e.stmts)) []
  | .reraise => .raise none
  | .raise value => .raise (some (f.expr value))

def StmtTrees.stmts : StmtTrees → List Stmt
  | .nil => []
  | .cons s rest => s.stmt :: rest.stmts

def ArmTrees.arms : ArmTrees → List CaseArm
  | .nil => []
  | .cons labels body rest => .mk (f.elements labels) body.stmt :: rest.arms

def HandlerTrees.handlers : HandlerTrees → List ExceptHandler
  | .last var className body => [.mk (var.getD "") className body.stmt]
  | .cons var className body rest => .mk (var.getD "") className body.stmt :: rest.handlers

end
end

/-! Statements up to the check switches. -/
section

mutual

def Stmt.unchecked : Stmt → Stmt
  | .compound body => .compound (uncheckedStmts body)
  | .assign target value _ => .assign target.unchecked value.unchecked false
  | .exprStmt e => .exprStmt e.unchecked
  | .ifStmt cond t e => .ifStmt cond.unchecked t.unchecked (uncheckedBranch e)
  | .whileStmt cond body => .whileStmt cond.unchecked body.unchecked
  | .repeatStmt body cond => .repeatStmt (uncheckedStmts body) cond.unchecked
  | .forTo var start stop downto body =>
    .forTo var start.unchecked stop.unchecked downto body.unchecked
  | .forIn var inExpr body => .forIn var inExpr.unchecked body.unchecked
  | .caseStmt selector arms e =>
    .caseStmt selector.unchecked (uncheckedArms arms) (uncheckedBranch e)
  | .withStmt exprs body => .withStmt (uncheckedList exprs) body.unchecked
  | .goto label => .goto label
  | .labeled label body => .labeled label body.unchecked
  | .emptyStmt => .emptyStmt
  | .asmStmt => .asmStmt
  | .tryStmt body isFinally handlers e finallyBody => .tryStmt (uncheckedStmts body) isFinally
      (uncheckedHandlers handlers) (uncheckedBranch e) (uncheckedStmts finallyBody)
  | .raise value => .raise (uncheckedOption value)

def uncheckedStmts : List Stmt → List Stmt
  | [] => []
  | s :: ss => s.unchecked :: uncheckedStmts ss

def uncheckedBranch : Option Stmt → Option Stmt
  | none => none
  | some s => some s.unchecked

def CaseArm.unchecked : CaseArm → CaseArm
  | .mk labels body => .mk (uncheckedList labels) body.unchecked

def uncheckedArms : List CaseArm → List CaseArm
  | [] => []
  | a :: as => a.unchecked :: uncheckedArms as

def ExceptHandler.unchecked : ExceptHandler → ExceptHandler
  | .mk var className body => .mk var className body.unchecked

def uncheckedHandlers : List ExceptHandler → List ExceptHandler
  | [] => []
  | h :: hs => h.unchecked :: uncheckedHandlers hs

end

theorem unchecked_block (body : List Stmt) :
    uncheckedBranch (some (.compound body)) = some (.compound (uncheckedStmts body)) := by
  rw [uncheckedBranch, Stmt.unchecked]

theorem uncheckedStmts_eq (ss : List Stmt) : uncheckedStmts ss = ss.map (·.unchecked) := by
  induction ss with
  | nil => rfl
  | cons s ss ih => rw [uncheckedStmts, ih, List.map_cons]

theorem uncheckedArms_eq (as : List CaseArm) : uncheckedArms as = as.map (·.unchecked) := by
  induction as with
  | nil => rfl
  | cons a as ih => rw [uncheckedArms, ih, List.map_cons]

theorem uncheckedHandlers_eq (hs : List ExceptHandler) :
    uncheckedHandlers hs = hs.map (·.unchecked) := by
  induction hs with
  | nil => rfl
  | cons h hs ih => rw [uncheckedHandlers, ih, List.map_cons]

end

/-! The text of a statement. -/
section

def withSemis (items : List (List Lexeme)) : List Lexeme := [.mark .semi].intercalate items

def directionTok (downto : Bool) : Tok := if downto then .kwDownto else .kwTo

def otherwiseTok (otherwise : Bool) : Tok := if otherwise then .kwOtherwise else .kwElse

def handlerHeader (var : Option String) (className : String) : List Lexeme :=
  match var with
  | none => [.ident className]
  | some v => [.ident v, .mark .colon, .ident className]

mutual

def StmtTree.print : StmtTree → List Lexeme
  | .compound body => .mark .kwBegin :: withSemis body.prints ++ [.mark .kwEnd]
  | .assign target value => target.print 1 ++ .mark .assign :: value.print 1
  | .exprStmt e => e.print 1
  | .ifThen cond t => .mark .kwIf :: cond.print 1 ++ .mark .kwThen :: t.print
  | .ifElse cond t e =>
    .mark .kwIf :: cond.print 1 ++ .mark .kwThen :: (t.print ++ .mark .kwElse :: e.print)
  | .whileStmt cond body => .mark .kwWhile :: cond.print 1 ++ .mark .kwDo :: body.print
  | .repeatStmt body cond =>
    .mark .kwRepeat :: withSemis body.prints ++ .mark .kwUntil :: cond.print 1
  | .forTo var start stop downto body =>
    .mark .kwFor :: .ident var :: .mark .assign :: start.print 1 ++
      .mark (directionTok downto) :: (stop.print 1 ++ .mark .kwDo :: body.print)
  | .forIn var inExpr body =>
    .mark .kwFor :: .ident var :: .mark .kwIn :: inExpr.print 1 ++ .mark .kwDo :: body.print
  | .caseOf selector arms =>
    .mark .kwCase :: selector.print 1 ++ .mark .kwOf :: (arms.print ++ [.mark .kwEnd])
  | .caseElse selector arms otherwise e =>
    .mark .kwCase :: selector.print 1 ++ .mark .kwOf ::
      (arms.print ++ .mark (otherwiseTok otherwise) :: (withSemis e.prints ++ [.mark .kwEnd]))
  | .withStmt first others body =>
    .mark .kwWith :: withCommas (first.print 1 :: others.prints) ++ .mark .kwDo :: body.print
  | .goto label => [.mark .kwGoto, .ident label]
  | .labeled label body => .ident label :: .mark .colon :: body.print
  | .emptyStmt => []
  | .asmStmt code => .mark .kwAsm :: code ++ [.mark .kwEnd]
  | .tryFinally body finallyBody =>
    .mark .kwTry :: withSemis body.prints ++
      .mark .kwFinally :: (withSemis finallyBody.prints ++ [.mark .kwEnd])
  | .tryExcept body e =>
    .mark .kwTry :: withSemis body.prints ++
      .mark .kwExcept :: (withSemis e.prints ++ [.mark .kwEnd])
  | .tryOn body handlers =>
    .mark .kwTry :: withSemis body.prints ++ .mark .kwExcept :: (handlers.print ++ [.mark .kwEnd])
  | .tryOnElse body handlers e =>
    .mark .kwTry :: withSemis body.prints ++ .mark .kwExcept ::
      (handlers.print ++ .mark .kwElse :: (withSemis e.prints ++ [.mark .kwEnd]))
  | .reraise => [.mark .kwRaise]
  | .raise value => .mark .kwRaise :: value.print 1

def StmtTrees.prints : StmtTrees → List (List Lexeme)
  | .nil => []
  | .cons s rest => s.print :: rest.prints

def ArmTrees.print : ArmTrees → List Lexeme
  | .nil => []
  | .cons labels body rest =>
    withCommas labels.prints ++ .mark .colon :: (body.print ++ .mark .semi :: rest.print)

def HandlerTrees.print : HandlerTrees → List Lexeme
  | .last var className body =>
    .ident "on" :: handlerHeader var className ++ .mark .kwDo :: (body.print ++ [.mark .semi])
  | .cons var className body rest =>
    .ident "on" :: handlerHeader var className ++
      .mark .kwDo :: (body.print ++ .mark .semi :: rest.print)

end
end

/-! Where the text of a statement may stand. -/
section

def EndsEmpty (k : Tok) : Bool := k ∈ [Tok.semi, .kwEnd, .kwUntil, .kwElse]

def StmtTree.isEmpty : StmtTree → Bool
  | .emptyStmt => true
  | _ => false

def ElementTrees.isNil : ElementTrees → Bool
  | .nil => true
  | _ => false

/-- The text of the list starts with `on`, which the parser takes for a handler. -/
def startsOn (items : List (List Lexeme)) : Bool := (withSemis items).head? = some (.ident "on")

def endsAsm (l : Lexeme) : Bool := l.kind ∈ [Tok.kwAsm, .kwEnd]

mutual

/-- The text of the tree may stand before a token of the kind: an `else` there is not that of an
`if` of the tree, and nothing is left out where a token has to stand. -/
def StmtTree.fits (k : Tok) : StmtTree → Bool
  | .compound body => body.fits .kwEnd
  | .assign _ _ | .exprStmt _ | .goto _ | .raise _ => true
  | .ifThen _ t => k ≠ .kwElse && t.fits k
  | .ifElse _ t e => t.fits .kwElse && e.fits k
  | .whileStmt _ body | .forTo _ _ _ _ body | .forIn _ _ body | .withStmt _ _ body
  | .labeled _ body => body.fits k
  | .repeatStmt body _ => body.fits .kwUntil
  | .caseOf _ arms => arms.fits
  | .caseElse _ arms _ e => arms.fits && e.fits .kwEnd
  | .emptyStmt | .reraise => EndsEmpty k
  | .asmStmt code => code.all fun l => !endsAsm l
  | .tryFinally body finallyBody => body.fits .kwFinally && finallyBody.fits .kwEnd
  | .tryExcept body e => body.fits .kwExcept && e.fits .kwEnd && !startsOn e.prints
  | .tryOn body handlers => body.fits .kwExcept && handlers.fits
  | .tryOnElse body handlers e => body.fits .kwExcept && handlers.fits && e.fits .kwEnd

/-- The last statement of a list is not empty: the parser reads none behind the last `;`. -/
def StmtTrees.fits (k : Tok) : StmtTrees → Bool
  | .nil => true
  | .cons s .nil => !s.isEmpty && s.fits k
  | .cons s rest => s.fits .semi && rest.fits k

def ArmTrees.fits : ArmTrees → Bool
  | .nil => true
  | .cons labels body rest => !labels.isNil && body.fits .semi && rest.fits

def HandlerTrees.fits : HandlerTrees → Bool
  | .last _ _ body => body.fits .semi
  | .cons _ _ body rest => body.fits .semi && rest.fits

end
end

end Tp2cc
