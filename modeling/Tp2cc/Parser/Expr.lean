import Tp2cc.Parser.Stream

set_option autoImplicit false

namespace Tp2cc
open Machine Parsing

def relationalOperator : Tok → Option BinOp
  | .eq => some .eq
  | .notEq => some .notEq
  | .lt => some .lt
  | .gt => some .gt
  | .ltEq => some .ltEq
  | .gtEq => some .gtEq
  | .kwIn => some .in
  | .kwIs => some .is
  | .kwAs => some .as
  | _ => none

def additiveOperator : Tok → Option BinOp
  | .plus => some .add
  | .minus => some .sub
  | .kwOr => some .or
  | .kwXor => some .xor
  | .symDiff => some .symDiff
  | _ => none

def multiplicativeOperator : Tok → Option BinOp
  | .star => some .mul
  | .slash => some .realDiv
  | .kwDiv => some .intDiv
  | .kwMod => some .mod
  | .kwAnd => some .and
  | .kwShl => some .shl
  | .kwShr => some .shr
  | _ => none

def consumeIdent (ctx : String) : P String := do
  let t ← cur
  if t.kind = .ident then do
    advance
    return t.text
  else do
    expect .ident ctx
    return ""

def consumeNameOrDirective (ctx : String) : P String := consumeIdent ctx

section
variable (r : Routines)

/-- `while (accept(Tok::Comma)) xs.push_back(p());` -/
def moreAfterCommas {α : Type} (p : P α) (xs : List α) : P (List α) :=
  loop (fun xs => do
    if ← accept .comma then return .again (xs ++ [← p])
    else return .done xs) r.fuel xs

structure CallArg where
  arg : Expr
  width : Option Expr
  precision : Option Expr

def parseCallArg : P CallArg := do
  let arg ← r.parseExpr
  if ← accept .colon then do
    let w ← r.parseExpr
    if ← accept .colon then return ⟨arg, some w, some (← r.parseExpr)⟩
    else return ⟨arg, some w, none⟩
  else return ⟨arg, none, none⟩

def parseCallArgs : P (List CallArg) :=
  loop (fun args => do
    if ← atEndOr [.rParen] then return .done args
    else do
      let args := args ++ [← parseCallArg r]
      if ← accept .comma then return .again args
      else return .done args) r.fuel []

def parsePostfix (lhs : Expr) : P Expr :=
  loop (fun lhs => do
    if ← accept .dot then return .again (.member lhs (← consumeNameOrDirective "member name"))
    else if ← accept .caret then return .again (.deref lhs)
    else if ← accept .lBrack then do
      let indices ← moreAfterCommas r r.parseExpr [← r.parseExpr]
      expect .rBrack "index"
      return .again (.index lhs indices)
    else if ← accept .lParen then do
      let args ← parseCallArgs r
      expect .rParen "call"
      return .again (.call lhs (args.map (·.arg)) (args.map (·.width)) (args.map (·.precision))
        (← overflowCheckActive) (← rangeCheckActive))
    else return .done lhs) r.fuel lhs

def parseRangeEnd (lo : Expr) : P Expr := do
  if ← accept .dotDot then return .range lo (← r.parseExpr)
  else return lo

def parseSetLiteral : P Expr := do
  expect .lBrack "set literal"
  let elements ← loop (fun elements => do
    if ← atEndOr [.rBrack] then return .done elements
    else do
      let element ← parseRangeEnd r (← r.parseExpr)
      if ← accept .comma then return .again (elements ++ [element])
      else return .done (elements ++ [element])) r.fuel []
  expect .rBrack "set literal"
  return .setLit elements

def parsePrimary : P Expr := do
  let t ← cur
  match t.kind with
  | .intLit => do
    advance
    parsePostfix r (.intLit t.intValue)
  | .realLit => do
    advance
    parsePostfix r (.realLit t.text)
  | .stringLit => do
    advance
    parsePostfix r (.stringLit t.text)
  | .kwNil => do
    advance
    parsePostfix r .nilLit
  | .kwTrue => do
    advance
    parsePostfix r (.boolLit true)
  | .kwFalse => do
    advance
    parsePostfix r (.boolLit false)
  | .lParen => do
    advance
    let e ← r.parseExpr
    expect .rParen "parenthesised expression"
    parsePostfix r e
  | .lBrack => do
    let e ← parseSetLiteral r
    parsePostfix r e
  | .kwInherited => do
    advance
    let m ← cur
    if m.kind = .ident then do
      advance
      parsePostfix r (.member (.ident "inherited") m.text)
    else parsePostfix r (.ident "inherited")
  | .kwString => do
    let name := if ← longStringsActive then "ansistring" else "shortstring"
    advance
    parsePostfix r (.ident name)
  | .kwShortstring => do
    advance
    parsePostfix r (.ident "shortstring")
  | .ident | .kwSelf => do
    advance
    parsePostfix r (.ident t.text)
  | _ => do
    reportError ("expected expression, got '" ++ t.text ++ "'")
    advance
    return .intLit 0

/-- C++ leaves open whether the check mode is read before or after the operand. -/
def parseFactor : P Expr := do
  match ← curKind with
  | .plus => do
    advance
    return .unary .plus (← r.parseFactor) (← overflowCheckActive)
  | .minus => do
    advance
    return .unary .neg (← r.parseFactor) (← overflowCheckActive)
  | .kwNot => do
    advance
    return .unary .not (← r.parseFactor) false
  | .atSign => do
    advance
    return .addrOf false (← r.parseFactor)
  | .atAt => do
    advance
    return .addrOf true (← r.parseFactor)
  | _ => parsePrimary r

def parseBinaryLevel (operator : Tok → Option BinOp) (operand : P Expr) : P Expr := do
  let lhs ← operand
  loop (fun lhs => do
    match operator (← curKind) with
    | none => return .done lhs
    | some op => do
      advance
      let rhs ← operand
      return .again (.binary op lhs rhs (← overflowCheckActive))) r.fuel lhs

def parseTerm : P Expr := parseBinaryLevel r multiplicativeOperator (parseFactor r)

def parseSimpleExpr : P Expr := parseBinaryLevel r additiveOperator (parseTerm r)

def parseExpr : P Expr := parseBinaryLevel r relationalOperator (parseSimpleExpr r)

/-- A bound is no relational expression, which leaves the `=` of a typed constant alone. -/
def parseSubrangeBound : P Expr := parseSimpleExpr r

end

section
variable {r : Routines} {n : Nat} {K : Tok → Prop}

theorem consumeIdent_safe (ctx : String) : Runs K n (fun _ => False) (consumeIdent ctx) := by
  refine Runs.look cur_looks fun t => Runs.ite ?_ ?_
  · exact Runs.bind advance_safe fun _ => Runs.pureSafe
  · exact Runs.closed

theorem consumeIdent_eats (ctx : String) :
    Runs (· = .ident) n (fun _ => True) (consumeIdent ctx) := by
  refine Runs.tokens fun t ht => ?_
  simp only [ht, if_true]
  exact Runs.advanceSafe (by simp) Runs.pureSafe

theorem moreAfterCommas_safe {α : Type} {p : P α} (h : r.Return n) (hp : Safe n p) (xs : List α) :
    Runs K n (fun _ => False) (moreAfterCommas r p xs) := by
  refine Runs.loop h.fuel_le (fun xs => ?_) xs
  refine Runs.acceptSafe (by decide) ?_ Runs.done
  exact Runs.bind hp fun _ => Runs.pureSafe

theorem parseCallArg_safe (h : r.Return n) : Safe n (parseCallArg r) := by
  refine Runs.bind h.parseExpr fun arg => Runs.acceptSafe (by decide) ?_ Runs.pureSafe
  refine Runs.bind h.parseExpr fun w => Runs.acceptSafe (by decide) ?_ Runs.pureSafe
  exact Runs.bind h.parseExpr fun p => Runs.pureSafe

theorem parseCallArgs_safe (h : r.Return n) : Safe n (parseCallArgs r) := by
  refine Runs.loop h.fuel_le (fun args => ?_) []
  refine Runs.test (atEndOr_tests _) Runs.done ?_
  refine Runs.bind ?_ fun _ => Runs.acceptSafe (by decide) Runs.pureSafe Runs.done
  exact (parseCallArg_safe h).safe

theorem parsePostfix_safe (h : r.Return n) (lhs : Expr) :
    Runs K n (fun _ => False) (parsePostfix r lhs) := by
  refine Runs.loop h.fuel_le (fun lhs => ?_) lhs
  refine Runs.acceptSafe (by decide) ?_ (Runs.acceptSafe (by decide) ?_ (Runs.acceptSafe (by decide) ?_ (Runs.acceptSafe (by decide) ?_ Runs.done)))
  · exact Runs.bind (consumeIdent_safe _) fun _ => Runs.pureSafe
  · exact Runs.pureSafe
  · refine Runs.bind h.parseExpr fun first => ?_
    refine Runs.bind (moreAfterCommas_safe h h.parseExpr _) fun indices => ?_
    exact Runs.closed
  · refine Runs.bind (parseCallArgs_safe h) fun args => Runs.expect ?_
    refine Runs.look overflowCheckActive_looks fun _ => ?_
    exact Runs.look rangeCheckActive_looks fun _ => Runs.pureSafe

theorem parseRangeEnd_safe (h : r.Return n) (lo : Expr) : Safe n (parseRangeEnd r lo) := by
  refine Runs.acceptSafe (by decide) ?_ Runs.pureSafe
  exact Runs.bind h.parseExpr fun hi => Runs.pureSafe

theorem parseSetLiteral_starts (h : r.Return n) :
    Starts (· = .lBrack) n (parseSetLiteral r) := by
  refine Starts.expect (by decide) ?_
  refine Runs.bind (Runs.loop h.fuel_le (fun elements => ?_) []) fun elements => Runs.closed
  refine Runs.test (atEndOr_tests _) Runs.done ?_
  refine Runs.bind h.parseExpr.safe fun lo => Runs.bind (parseRangeEnd_safe h lo) fun element => ?_
  exact Runs.acceptSafe (by decide) Runs.pureSafe Runs.done

theorem parsePrimary_safe (h : r.Return n) : Safe (n+1) (parsePrimary r) := by
  have leaf {k : Tok} (e : Expr) (hk : k ≠ .eof) :
      Runs (· = k) (n+1) (fun _ => False) (advance >>= fun _ => parsePostfix r e) :=
    Runs.advance (fun _ h => h ▸ hk) (parsePostfix_safe h e)
  refine Runs.tokens fun t _ => ?_
  generalize t.kind = k
  split
  case h_7 =>
    refine Runs.advance (by simp) (Runs.bind h.parseExpr fun e => ?_)
    exact Runs.expect (parsePostfix_safe h e)
  case h_8 => exact Runs.bindEaten (parseSetLiteral_starts h).eats fun e => parsePostfix_safe h e
  case h_9 =>
    refine Runs.advance (by simp) (Runs.look cur_looks fun m => Runs.ite ?_ (parsePostfix_safe h _))
    exact Runs.bind advance_safe fun _ => parsePostfix_safe h _
  case h_10 => exact Runs.look longStringsActive_looks fun _ => leaf _ (by decide)
  case h_14 =>
    refine Runs.look (reportError_looks _) fun _ => Runs.bind advance_safe fun _ => Runs.pureSafe
  all_goals exact leaf _ (by decide)

theorem parseFactor_safe (h : r.Return n) : Safe (n+1) (parseFactor r) := by
  refine Runs.kinds fun k _ => ?_
  split
  · refine Runs.advance (by simp) (Runs.bind h.parseFactor fun e => ?_)
    exact Runs.look overflowCheckActive_looks fun _ => Runs.pureSafe
  · refine Runs.advance (by simp) (Runs.bind h.parseFactor fun e => ?_)
    exact Runs.look overflowCheckActive_looks fun _ => Runs.pureSafe
  · exact Runs.advance (by simp) (Runs.bind h.parseFactor fun e => Runs.pureSafe)
  · exact Runs.advance (by simp) (Runs.bind h.parseFactor fun e => Runs.pureSafe)
  · exact Runs.advance (by simp) (Runs.bind h.parseFactor fun e => Runs.pureSafe)
  · exact (parsePrimary_safe h).safe

theorem parseBinaryLevel_safe (h : r.Return n) {operator : Tok → Option BinOp}
    (heof : operator .eof = none) {operand : P Expr} (hop : Safe (n+1) operand) :
    Safe (n+1) (parseBinaryLevel r operator operand) := by
  refine Runs.bind hop fun lhs => Runs.loop h.fuel (fun lhs => ?_) lhs
  refine Runs.kinds fun k _ => ?_
  split
  · exact Runs.done
  · rename_i op hk
    refine Runs.advance (fun _ hk' he => ?_) (Runs.bind ?_ fun rhs => ?_)
    · rw [← hk', he, heof] at hk
      cases hk
    · exact hop.mono (fun _ => id) (Nat.le_succ n) fun _ => id
    · exact Runs.look overflowCheckActive_looks fun _ => Runs.pureSafe

theorem parseTerm_safe (h : r.Return n) : Safe (n+1) (parseTerm r) :=
  parseBinaryLevel_safe h rfl (parseFactor_safe h)

theorem parseSimpleExpr_safe (h : r.Return n) : Safe (n+1) (parseSimpleExpr r) :=
  parseBinaryLevel_safe h rfl (parseTerm_safe h)

theorem parseExpr_safe (h : r.Return n) : Safe (n+1) (parseExpr r) :=
  parseBinaryLevel_safe h rfl (parseSimpleExpr_safe h)

end
end Tp2cc
