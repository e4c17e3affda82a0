import Tp2cc.Parser.Expr

set_option autoImplicit false

namespace Tp2cc
open Machine Parsing

section
variable (r : Routines)

def parseStatementsUntil (stops : List Tok) : P (List Stmt) :=
  loop (fun body => do
    if ← atEndOr stops then return .done body
    else do
      let body := body ++ [← r.parseStatement]
      if ← accept .semi then return .again body
      else return .done body) r.fuel []

def parseStatementBlockUntil (stops : List Tok) : P Stmt := do
  return .compound (← parseStatementsUntil r stops)

def parseCompoundStatement : P Stmt := do
  expect .kwBegin "compound statement"
  let body ← parseStatementsUntil r [.kwEnd]
  expect .kwEnd "compound statement"
  return .compound body

/-- C++ leaves open whether the check mode is read before or after the value. -/
def parseLabeledOrSimple : P Stmt := do
  let lhs ← parseExpr r
  if ← accept .assign then return .assign lhs (← r.parseExpr) (← rangeCheckActive)
  else return .exprStmt lhs

def parseElse : P (Option Stmt) := do
  if ← accept .kwElse then return some (← r.parseStatement)
  else return none

def parseIf : P Stmt := do
  expect .kwIf "if"
  let cond ← r.parseExpr
  expect .kwThen "if"
  let thenBranch ← r.parseStatement
  return .ifStmt cond thenBranch (← parseElse r)

def parseWhile : P Stmt := do
  expect .kwWhile "while"
  let cond ← r.parseExpr
  expect .kwDo "while"
  return .whileStmt cond (← r.parseStatement)

def parseRepeat : P Stmt := do
  expect .kwRepeat "repeat"
  let body ← parseStatementsUntil r [.kwUntil]
  expect .kwUntil "repeat"
  return .repeatStmt body (← r.parseExpr)

def parseForDirection : P Bool := do
  if ← accept .kwTo then return false
  else if ← accept .kwDownto then return true
  else do
    expect .kwTo "for"
    return false

def parseFor : P Stmt := do
  expect .kwFor "for"
  let var ← consumeIdent "for variable"
  if ← accept .kwIn then do
    let inExpr ← r.parseExpr
    expect .kwDo "for"
    return .forIn var inExpr (← r.parseStatement)
  else do
    expect .assign "for"
    let start ← r.parseExpr
    let downto ← parseForDirection
    let stop ← r.parseExpr
    expect .kwDo "for"
    return .forTo var start stop downto (← r.parseStatement)

def parseCaseLabel : P Expr := do
  parseRangeEnd r (← r.parseExpr)

def parseCaseArms : P (List CaseArm) :=
  loop (fun arms => do
    if ← atEndOr [.kwEnd, .kwElse, .kwOtherwise] then return .done arms
    else do
      let labels ← moreAfterCommas r (parseCaseLabel r) [← parseCaseLabel r]
      expect .colon "case arm"
      let arms := arms ++ [.mk labels (← r.parseStatement)]
      if ← accept .semi then return .again arms
      else return .done arms) r.fuel []

def parseCaseElse : P (Option Stmt) := do
  if ← accept .kwElse then return some (← parseStatementBlockUntil r [.kwEnd])
  else if ← accept .kwOtherwise then return some (← parseStatementBlockUntil r [.kwEnd])
  else return none

def parseCase : P Stmt := do
  expect .kwCase "case"
  let selector ← r.parseExpr
  expect .kwOf "case"
  let arms ← parseCaseArms r
  let elseBranch ← parseCaseElse r
  expect .kwEnd "case"
  return .caseStmt selector arms elseBranch

def parseWith : P Stmt := do
  expect .kwWith "with"
  let exprs ← moreAfterCommas r r.parseExpr [← r.parseExpr]
  expect .kwDo "with"
  return .withStmt exprs (← r.parseStatement)

def parseHandlerHeader : P (String × String) := do
  let first ← consumeIdent "exception handler"
  if ← accept .colon then return (first, ← consumeIdent "exception class")
  else return ("", first)

/-- `on` is a soft keyword: it arrives as an identifier. -/
def parseHandlers : P (List ExceptHandler) :=
  loop (fun handlers => do
    if ← isDirective "on" then do
      advance
      let header ← parseHandlerHeader
      expect .kwDo "exception handler"
      let body ← r.parseStatement
      let _ ← accept .semi
      return .again (handlers ++ [.mk header.1 header.2 body])
    else return .done handlers) r.fuel []

def parseExceptElse : P (Option Stmt) := do
  if ← accept .kwElse then return some (← parseStatementBlockUntil r [.kwEnd])
  else return none

def parseTry : P Stmt := do
  expect .kwTry "try"
  let body ← parseStatementsUntil r [.kwExcept, .kwFinally]
  if ← accept .kwFinally then do
    let finallyBody ← parseStatementsUntil r [.kwEnd]
    expect .kwEnd "try"
    return .tryStmt body true [] none finallyBody
  else if ← accept .kwExcept then do
    if ← isDirective "on" then do
      let handlers ← parseHandlers r
      let exceptElse ← parseExceptElse r
      expect .kwEnd "try"
      return .tryStmt body false handlers exceptElse []
    else do
      -- a plain statement list is the `else` branch of no handlers
      let exceptElse ← parseStatementBlockUntil r [.kwEnd]
      expect .kwEnd "try"
      return .tryStmt body false [] (some exceptElse) []
  else do
    expect .kwExcept "try"
    expect .kwEnd "try"
    return .tryStmt body false [] none []

def parseRaiseValue : P (Option Expr) := do
  if ← checkAny [.semi, .kwEnd, .kwElse, .kwUntil] then return none
  else return some (← r.parseExpr)

/-- `at address` and `at address, frame` are read and dropped. -/
def skipRaiseAddress : P Unit := do
  if ← isDirective "at" then do
    advance
    let _ ← r.parseExpr
    if ← accept .comma then do
      let _ ← r.parseExpr
      return ()
    else return ()
  else return ()

def parseRaise : P Stmt := do
  expect .kwRaise "raise"
  let value ← parseRaiseValue r
  skipRaiseAddress r
  return .raise value

/-- The tokens of an `asm` body are skipped up to the `end` of the depth that opened it. -/
def skipAsm : P Unit :=
  loop (fun (depth : Nat) => do
    if ← atEndOr [] then return .done ()
    else if ← check .kwEnd then do
      if depth ≤ 1 then return .done ()
      else do
        advance
        return .again (depth-1)
    else if ← check .kwAsm then do
      advance
      return .again (depth+1)
    else do
      advance
      return .again depth) r.fuel 1

def parseAsm : P Stmt := do
  expect .kwAsm "asm"
  skipAsm r
  expect .kwEnd "asm"
  return .asmStmt

def parseGoto : P Stmt := do
  advance
  let t ← cur
  if t.kind = .ident ∨ t.kind = .intLit then do
    advance
    return .goto t.text
  else do
    expect .ident "goto target"
    return .goto ""

/-- `Ident:` and `123:` start a labeled statement. -/
def parseLabeled : P Stmt := do
  let lab ← cur
  advance
  advance
  return .labeled lab.text (← r.parseStatement)

def parseStatement : P Stmt := do
  if ← checkPeek .ident [.colon] then parseLabeled r
  else if ← checkPeek .intLit [.colon] then parseLabeled r
  else
    match ← curKind with
    | .kwBegin => parseCompoundStatement r
    | .kwIf => parseIf r
    | .kwWhile => parseWhile r
    | .kwRepeat => parseRepeat r
    | .kwFor => parseFor r
    | .kwCase => parseCase r
    | .kwWith => parseWith r
    | .kwGoto => parseGoto
    | .kwAsm => parseAsm r
    | .kwTry => parseTry r
    | .kwRaise => parseRaise r
    | .semi | .kwEnd | .kwUntil | .kwElse => return .emptyStmt
    | _ => parseLabeledOrSimple r

end

section
variable {r : Routines} {n : Nat} {K : Tok → Prop}

theorem parseStatementsUntil_safe (h : r.Return n) (stops : List Tok) :
    Safe n (parseStatementsUntil r stops) := by
  refine Runs.loop h.fuel_le (fun body => ?_) []
  refine Runs.test (atEndOr_tests _) Runs.done ?_
  exact Runs.bind h.parseStatement.safe fun s => Runs.acceptSafe (by decide) Runs.pureSafe Runs.done

theorem parseStatementBlockUntil_safe (h : r.Return n) (stops : List Tok) :
    Safe n (parseStatementBlockUntil r stops) :=
  Runs.bind (parseStatementsUntil_safe h stops) fun _ => Runs.pureSafe

theorem parseCompoundStatement_starts (h : r.Return n) :
    Starts (· = .kwBegin) n (parseCompoundStatement r) :=
  Starts.expect (by decide) (Runs.bind (parseStatementsUntil_safe h _) fun _ => Runs.closed)

theorem parseLabeledOrSimple_safe (h : r.Return n) : Safe (n+1) (parseLabeledOrSimple r) := by
  refine Runs.bind (parseExpr_safe h) fun lhs => Runs.accept (by decide) ?_ Runs.pureSafe
  refine Runs.bind h.parseExpr fun value => ?_
  exact Runs.look rangeCheckActive_looks fun _ => Runs.pureSafe

theorem parseElse_safe (h : r.Return n) : Safe n (parseElse r) := by
  refine Runs.acceptSafe (by decide) ?_ Runs.pureSafe
  exact Runs.bind h.parseStatement fun _ => Runs.pureSafe

theorem parseIf_starts (h : r.Return n) :
    Starts (· = .kwIf) n (parseIf r) := by
  refine Starts.expect (by decide) (Runs.bind h.parseExpr fun cond => Runs.expect ?_)
  refine Runs.bind h.parseStatement fun thenBranch => ?_
  exact Runs.bind (parseElse_safe h) fun elseBranch => Runs.pureSafe

theorem parseWhile_starts (h : r.Return n) :
    Starts (· = .kwWhile) n (parseWhile r) := by
  refine Starts.expect (by decide) (Runs.bind h.parseExpr fun cond => Runs.expect ?_)
  exact Runs.bind h.parseStatement fun body => Runs.pureSafe

theorem parseRepeat_starts (h : r.Return n) :
    Starts (· = .kwRepeat) n (parseRepeat r) := by
  refine Starts.expect (by decide) (Runs.bind (parseStatementsUntil_safe h _) fun body => Runs.expect ?_)
  exact Runs.bind h.parseExpr fun cond => Runs.pureSafe

theorem parseForDirection_safe : Safe n parseForDirection := by
  refine Runs.acceptSafe (by decide) Runs.pureSafe (Runs.acceptSafe (by decide) Runs.pureSafe ?_)
  exact Runs.closed

theorem parseFor_starts (h : r.Return n) :
    Starts (· = .kwFor) n (parseFor r) := by
  refine Starts.expect (by decide) (Runs.bind (consumeIdent_safe _) fun var => Runs.acceptSafe (by decide) ?_ ?_)
  · refine Runs.bind h.parseExpr fun inExpr => Runs.expect ?_
    exact Runs.bind h.parseStatement fun body => Runs.pureSafe
  · refine Runs.expect (Runs.bind h.parseExpr fun start => ?_)
    refine Runs.bind parseForDirection_safe fun downto => ?_
    refine Runs.bind h.parseExpr fun stop => Runs.expect ?_
    exact Runs.bind h.parseStatement fun body => Runs.pureSafe

theorem parseCaseLabel_safe (h : r.Return n) : Safe n (parseCaseLabel r) :=
  Runs.bind h.parseExpr fun lo => parseRangeEnd_safe h lo

theorem parseCaseArms_safe (h : r.Return n) : Safe n (parseCaseArms r) := by
  refine Runs.loop h.fuel_le (fun arms => ?_) []
  refine Runs.test (atEndOr_tests _) Runs.done ?_
  refine Runs.bind (parseCaseLabel_safe h).safe fun first => ?_
  refine Runs.bind (moreAfterCommas_safe h (parseCaseLabel_safe h) _) fun labels => Runs.expect ?_
  exact Runs.bind h.parseStatement fun body => Runs.acceptSafe (by decide) Runs.pureSafe Runs.done

theorem parseCaseElse_safe (h : r.Return n) : Safe n (parseCaseElse r) := by
  have body : Safe n (do return some (← parseStatementBlockUntil r [.kwEnd])) :=
    Runs.bind (parseStatementBlockUntil_safe h _) fun _ => Runs.pureSafe
  exact Runs.acceptSafe (by decide) body (Runs.acceptSafe (by decide) body Runs.pureSafe)

theorem parseCase_starts (h : r.Return n) :
    Starts (· = .kwCase) n (parseCase r) := by
  refine Starts.expect (by decide) (Runs.bind h.parseExpr fun selector => Runs.expect ?_)
  refine Runs.bind (parseCaseArms_safe h) fun arms => ?_
  exact Runs.bind (parseCaseElse_safe h) fun elseBranch => Runs.closed

theorem parseWith_starts (h : r.Return n) :
    Starts (· = .kwWith) n (parseWith r) := by
  refine Starts.expect (by decide) (Runs.bind h.parseExpr fun first => ?_)
  refine Runs.bind (moreAfterCommas_safe h h.parseExpr _) fun exprs => Runs.expect ?_
  exact Runs.bind h.parseStatement fun body => Runs.pureSafe

theorem parseHandlerHeader_safe : Safe n parseHandlerHeader := by
  refine Runs.bind (consumeIdent_safe _) fun first => Runs.acceptSafe (by decide) ?_ Runs.pureSafe
  exact Runs.bind (consumeIdent_safe _) fun className => Runs.pureSafe

theorem parseHandlers_safe (h : r.Return n) : Safe n (parseHandlers r) := by
  refine Runs.loop h.fuel_le (fun handlers => ?_) []
  refine Runs.test (isDirective_tests _) (Runs.advanceSafe (by simp) ?_) Runs.done
  refine Runs.bind parseHandlerHeader_safe fun header => Runs.expect ?_
  refine Runs.bind h.parseStatement fun body => ?_
  exact Runs.bind (accept_safe _) fun _ => Runs.pureSafe

theorem parseExceptElse_safe (h : r.Return n) : Safe n (parseExceptElse r) := by
  refine Runs.acceptSafe (by decide) ?_ Runs.pureSafe
  exact Runs.bind (parseStatementBlockUntil_safe h _) fun _ => Runs.pureSafe

theorem parseTry_starts (h : r.Return n) :
    Starts (· = .kwTry) n (parseTry r) := by
  refine Starts.expect (by decide) (Runs.bind (parseStatementsUntil_safe h _) fun body => ?_)
  refine Runs.acceptSafe (by decide) ?_ (Runs.acceptSafe (by decide) ?_ (Runs.expect Runs.closed))
  · exact Runs.bind (parseStatementsUntil_safe h _) fun finallyBody => Runs.closed
  · refine Runs.test (isDirective_tests _) (Safe.at ?_) (Safe.at ?_)
    · refine Runs.bind (parseHandlers_safe h) fun handlers => ?_
      exact Runs.bind (parseExceptElse_safe h) fun exceptElse => Runs.closed
    · exact Runs.bind (parseStatementBlockUntil_safe h _) fun exceptElse => Runs.closed

theorem parseRaiseValue_safe (h : r.Return n) : Safe n (parseRaiseValue r) := by
  refine Runs.test (checkAny_tests _) Runs.pureSafe (Safe.at ?_)
  exact Runs.bind h.parseExpr fun value => Runs.pureSafe

theorem skipRaiseAddress_safe (h : r.Return n) : Safe n (skipRaiseAddress r) := by
  refine Runs.test (isDirective_tests _) (Runs.advanceSafe (by simp) ?_) Runs.pureSafe
  refine Runs.bind h.parseExpr fun _ => Runs.acceptSafe (by decide) ?_ Runs.pureSafe
  exact Runs.bind h.parseExpr fun _ => Runs.pureSafe

theorem parseRaise_starts (h : r.Return n) :
    Starts (· = .kwRaise) n (parseRaise r) := by
  refine Starts.expect (by decide) (Runs.bind (parseRaiseValue_safe h) fun value => ?_)
  exact Runs.bind (skipRaiseAddress_safe h) fun _ => Runs.pureSafe

theorem skipAsm_safe (h : r.Return n) : Safe n (skipAsm r) := by
  refine Runs.loop h.fuel_le (fun depth => ?_) 1
  refine Runs.test (atEndOr_tests _) Runs.done ?_
  refine Runs.test (check_tests _) (Runs.ite Runs.done ?_) (Runs.test (check_tests _) ?_ ?_)
  · exact Runs.advanceSafe (by simp +contextual) Runs.pureSafe
  · exact Runs.advanceSafe (by simp +contextual) Runs.pureSafe
  · exact Runs.advanceSafe (by simp +contextual) Runs.pureSafe

theorem parseAsm_starts (h : r.Return n) :
    Starts (· = .kwAsm) n (parseAsm r) :=
  Starts.expect (by decide) (Runs.bind (skipAsm_safe h) fun _ => Runs.closed)

theorem parseGoto_starts : Starts (· = .kwGoto) n parseGoto := by
  refine Starts.advance (by simp) (Runs.look cur_looks fun t => Runs.ite ?_ Runs.closed)
  exact Runs.bind advance_safe fun _ => Runs.pureSafe

theorem parseLabeled_starts (h : r.Return n) (hK : ∀ k, K k → k ≠ .eof) :
    Starts K n (parseLabeled r) := by
  refine Starts.look cur_looks fun lab => Starts.advance hK (Runs.bind advance_safe fun _ => ?_)
  exact Runs.bind h.parseStatement fun body => Runs.pureSafe

theorem parseStatement_safe (h : r.Return n) : Safe (n+1) (parseStatement r) := by
  refine Runs.test (checkPeek_tests _ _) ?_ (Runs.test (checkPeek_tests _ _) ?_ ?_)
  · exact (parseLabeled_starts h (by simp)).forget
  · exact (parseLabeled_starts h (by simp)).forget
  · refine Runs.kinds fun k _ => ?_
    split
    · exact (parseCompoundStatement_starts h).forget
    · exact (parseIf_starts h).forget
    · exact (parseWhile_starts h).forget
    · exact (parseRepeat_starts h).forget
    · exact (parseFor_starts h).forget
    · exact (parseCase_starts h).forget
    · exact (parseWith_starts h).forget
    · exact parseGoto_starts.forget
    · exact (parseAsm_starts h).forget
    · exact (parseTry_starts h).forget
    · exact (parseRaise_starts h).forget
    · exact Runs.pureSafe
    · exact Runs.pureSafe
    · exact Runs.pureSafe
    · exact Runs.pureSafe
    · exact (parseLabeledOrSimple_safe h).safe

end
end Tp2cc
