import Tp2cc.Parser.Type

set_option autoImplicit false

namespace Tp2cc
open Machine Parsing

def elementTarget : Option TypeExpr → Option TypeExpr
  | some (.tyArray dims element isPacked arrayKind) =>
    if dims.length > 1 then some (.tyArray dims.tail element isPacked arrayKind) else some element
  | _ => none

def isArrayTarget : Option TypeExpr → Bool
  | some (.tyArray _ _ _ _) => true
  | _ => false

section
variable (r : Routines)

def parseRecordConst : P Expr := do
  let fields ← loop (fun fields => do
    if ← atEndOr [.rParen] then return .done fields
    else do
      let name ← consumeNameOrDirective "record-constant field"
      expect .colon "record-constant field"
      let fields := fields ++ [(name, ← r.parseConstValue none)]
      if ← accept .semi then return .again fields
      else return .done fields) r.fuel []
  expect .rParen "record constant"
  return .recordConst fields

/-- `(x)` is an array only where the type says so: as a one element array it would break nested
record constants. -/
def parseArrayConst (target : Option TypeExpr) : P Expr := do
  if ← check .rParen then do
    advance
    return .arrayConst []
  else do
    let first ← r.parseConstValue (elementTarget target)
    if ← accept .comma then do
      let second ← r.parseConstValue (elementTarget target)
      let elements ← moreAfterCommas r (r.parseConstValue (elementTarget target)) [first, second]
      expect .rParen "array constant"
      return .arrayConst elements
    else if isArrayTarget target then do
      expect .rParen "array constant"
      return .arrayConst [first]
    else do
      expect .rParen "parenthesised constant"
      return first

def parseConstValue (target : Option TypeExpr) : P Expr := do
  if ← check .lParen then do
    advance
    if ← checkPeek .ident [.colon] then parseRecordConst r
    else parseArrayConst r target
  else parseExpr r

/-- `deprecated` and its like behind a constant. -/
def skipHints : P Unit :=
  loop (fun (_ : Unit) => do
    if ← isAnyDirective ["deprecated", "platform", "library", "experimental"] then do
      advance
      let _ ← acceptStringLit
      return .again ()
    else return .done ()) r.fuel ()

def parseConstDecl : P Decl := do
  let t ← cur
  advance
  if ← accept .colon then do
    let type ← r.parseType
    expect .eq "const decl"
    let value ← r.parseConstValue (some type)
    skipHints r
    expect .semi "const decl"
    return .constDecl t.text (some type) value
  else do
    expect .eq "const decl"
    let value ← r.parseExpr
    skipHints r
    expect .semi "const decl"
    return .constDecl t.text none value

def parseSection (decl : P Decl) : P (List Decl) :=
  loop (fun out => do
    if ← check .ident then return .again (out ++ [← decl])
    else return .done out) r.fuel []

def parseConstSection : P (List Decl) := do
  expect .kwConst "const section"
  parseSection r (parseConstDecl r)

def parseTypeSection : P (List Decl) := do
  expect .kwType "type section"
  let typeSectionId ← nextTypeSectionId
  parseSection r (parseTypeDeclFromCurrentIdent r "type decl" typeSectionId)

structure VarTail where
  init : Option Expr := none
  isAbsolute : Bool := false
  isExternal : Bool := false
  absoluteTarget : String := ""
  externalName : Option Expr := none
  externalLib : String := ""

def parseAbsoluteTarget : P String := do
  let t ← cur
  if t.kind = .ident then do
    advance
    return t.text
  else do
    reportError "expected identifier after 'absolute'"
    return ""

def parseExternalName : P (Option Expr) := do
  if ← isDirective "name" then do
    advance
    let t ← cur
    if t.kind = .stringLit then do
      advance
      return some (.stringLit t.text)
    else return none
  else return none

def parseVarTail (type : TypeExpr) : P VarTail := do
  if ← isDirective "absolute" then do
    advance
    return { isAbsolute := true, absoluteTarget := ← parseAbsoluteTarget }
  else if ← accept .eq then return { init := some (← r.parseConstValue (some type)) }
  else if ← isDirective "external" then do
    advance
    let externalLib ← acceptStringLit
    return { isExternal := true, externalLib := externalLib, externalName := ← parseExternalName }
  else return {}

def parseVarDecl : P Decl := do
  let names ← parseNames r
  expect .colon "var decl"
  let type ← r.parseType
  let tail ← parseVarTail r type
  expect .semi "var decl"
  return .varDecl names type tail.init tail.isAbsolute tail.isExternal tail.absoluteTarget
    tail.externalName tail.externalLib

def parseVarSection : P (List Decl) := do
  expect .kwVar "var section"
  parseSection r (parseVarDecl r)

def parseLabelSection : P (List Decl) := do
  expect .kwLabel "label section"
  let labels ← loop (fun labels => do
    if ← checkAny [.ident, .intLit] then do
      let t ← cur
      advance
      let labels := labels ++ [t.text]
      if ← accept .comma then return .again labels
      else return .done labels
    else return .done labels) r.fuel []
  expect .semi "label section"
  return [.labelDecl labels]

/-- `class` in a block starts a class method, or it ends the block. -/
def parseClassProc (inInterface : Bool) (out : List Decl) : P (LoopStep (List Decl) (List Decl)) := do
  if (← peekKind) ∈ procKeywords then do
    advance
    let pk := procKindOf (← curKind)
    return .again (out ++ [← parseProcDecl r pk inInterface true false])
  else return .done out

def parseDeclBlock (inInterface : Bool) : P (List Decl) :=
  loop (fun out => do
    match ← curKind with
    | .kwConst => return .again (out ++ (← parseConstSection r))
    | .kwType => return .again (out ++ (← parseTypeSection r))
    | .kwVar => return .again (out ++ (← parseVarSection r))
    | .kwLabel => return .again (out ++ (← parseLabelSection r))
    | .kwProcedure => return .again (out ++ [← parseProcDecl r .procedure inInterface false false])
    | .kwFunction => return .again (out ++ [← parseProcDecl r .function inInterface false false])
    | .kwOperator => return .again (out ++ [← parseOperatorDecl r inInterface])
    | .kwClass => parseClassProc r inInterface out
    | .kwConstructor =>
      return .again (out ++ [← parseProcDecl r .constructor inInterface false false])
    | .kwDestructor => return .again (out ++ [← parseProcDecl r .destructor inInterface false false])
    | _ => return .done out) r.fuel []

end

section
variable {r : Routines} {n : Nat} {K : Tok → Prop}

theorem parseRecordConst_safe (h : r.Return n) : Safe n (parseRecordConst r) := by
  refine Runs.bind (Runs.loop h.fuel_le (fun fields => ?_) []) fun fields => Runs.closed
  refine Runs.test (atEndOr_tests _) Runs.done ?_
  refine Runs.bind (consumeIdent_safe _) fun name => Runs.expect ?_
  exact Runs.bind (h.parseConstValue _) fun value => Runs.acceptSafe (by decide) Runs.pureSafe Runs.done

theorem parseArrayConst_safe (h : r.Return n) (target : Option TypeExpr) :
    Safe n (parseArrayConst r target) := by
  have element := h.parseConstValue (elementTarget target)
  refine Runs.test (check_tests _) ?_ (Safe.at (Runs.bind element fun first => ?_))
  · exact Runs.bind advance_safe fun _ => Runs.pureSafe
  · refine Runs.acceptSafe (by decide) (Runs.bind element fun second => ?_) (Runs.ite Runs.closed Runs.closed)
    exact Runs.bind (moreAfterCommas_safe h element _) fun elements => Runs.closed

theorem parseConstValue_safe (h : r.Return n) (target : Option TypeExpr) :
    Safe (n+1) (parseConstValue r target) := by
  refine Runs.test (check_tests _) (Runs.advance (by simp) ?_) (parseExpr_safe h).at
  refine Runs.test (checkPeek_tests _ _) (parseRecordConst_safe h).at ?_
  exact (parseArrayConst_safe h target).at

theorem skipHints_safe (h : r.Return n) : Safe n (skipHints r) := by
  refine Runs.loop h.fuel_le (fun _ => ?_) ()
  refine Runs.test (isAnyDirective_tests _) (Runs.advanceSafe (by simp) ?_) Runs.done
  exact Runs.bind acceptStringLit_safe fun _ => Runs.pureSafe

theorem parseConstDecl_eats (h : r.Return n) :
    Runs (· = .ident) n (fun _ => True) (parseConstDecl r) := by
  refine Runs.look cur_looks fun t => Runs.advanceSafe (by simp) (Runs.acceptSafe (by decide) ?_ (Runs.expect ?_))
  · refine Runs.bind h.parseType fun type => Runs.expect ?_
    refine Runs.bind (h.parseConstValue _) fun value => ?_
    exact Runs.bind (skipHints_safe h) fun _ => Runs.closed
  · refine Runs.bind h.parseExpr fun value => ?_
    exact Runs.bind (skipHints_safe h) fun _ => Runs.closed

theorem parseSection_safe (h : r.Return n) {decl : P Decl}
    (hdecl : Runs (· = .ident) n (fun _ => True) decl) : Safe n (parseSection r decl) := by
  refine Runs.loop h.fuel_le (fun out => Runs.test (check_tests _) ?_ Runs.done) []
  refine Runs.bindEatenSafe ?_ fun d => Runs.pureSafe
  exact hdecl.mono (fun _ h => h.2) (Nat.le_refl _) fun _ => id

theorem parseConstSection_starts (h : r.Return n) :
    Starts (· = .kwConst) n (parseConstSection r) :=
  Starts.expect (by decide) (parseSection_safe h (parseConstDecl_eats h))

theorem parseTypeSection_starts (h : r.Return n) :
    Starts (· = .kwType) n (parseTypeSection r) := by
  refine Starts.expect (by decide) (Runs.look nextTypeSectionId_looks fun id => ?_)
  exact parseSection_safe h (parseTypeDeclFromCurrentIdent_eats h _ _)

theorem parseAbsoluteTarget_safe : Safe n parseAbsoluteTarget := by
  refine Runs.look cur_looks fun t => Runs.ite ?_ ?_
  · exact Runs.bind advance_safe fun _ => Runs.pureSafe
  · exact Runs.look (reportError_looks _) fun _ => Runs.pureSafe

theorem parseExternalName_safe : Safe n parseExternalName := by
  refine Runs.test (isDirective_tests _) (Runs.bind advance_safe fun _ => ?_) Runs.pureSafe
  refine Runs.look cur_looks fun t => Runs.ite ?_ Runs.pureSafe
  exact Runs.bind advance_safe fun _ => Runs.pureSafe

theorem parseVarTail_safe (h : r.Return n) (type : TypeExpr) : Safe n (parseVarTail r type) := by
  refine Runs.test (isDirective_tests _) ?_ (Runs.acceptSafe (by decide) ?_ ?_)
  · exact Runs.bind advance_safe fun _ => Runs.bind parseAbsoluteTarget_safe fun _ => Runs.pureSafe
  · exact Runs.bind (h.parseConstValue _) fun value => Runs.pureSafe
  · refine Runs.test (isDirective_tests _) (Runs.bind advance_safe fun _ => ?_) Runs.pureSafe
    refine Runs.bind acceptStringLit_safe fun externalLib => ?_
    exact Runs.bind parseExternalName_safe fun externalName => Runs.pureSafe

theorem parseVarDecl_eats (h : r.Return n) :
    Runs (· = .ident) n (fun _ => True) (parseVarDecl r) := by
  refine Runs.bindEatenSafe (parseNames_eats h (by simp +contextual)) fun names => Runs.expect ?_
  refine Runs.bind h.parseType fun type => ?_
  exact Runs.bind (parseVarTail_safe h type) fun tail => Runs.closed

theorem parseVarSection_starts (h : r.Return n) :
    Starts (· = .kwVar) n (parseVarSection r) :=
  Starts.expect (by decide) (parseSection_safe h (parseVarDecl_eats h))

theorem parseLabelSection_starts (h : r.Return n) :
    Starts (· = .kwLabel) n (parseLabelSection r) := by
  refine Starts.expect (by decide) (Runs.bind (Runs.loop h.fuel_le (fun labels => ?_) []) fun labels => ?_)
  · refine Runs.test (checkAny_tests _) (Runs.look cur_looks fun t => ?_) Runs.done
    exact Runs.bind advance_safe fun _ => Runs.acceptSafe (by decide) Runs.pureSafe Runs.done
  · exact Runs.closed

theorem parseClassProc_again (h : r.Return n) (inInterface : Bool) (out : List Decl) :
    Runs (· = .kwClass) (n+1) Again (parseClassProc r inInterface out) := by
  refine Runs.look peekKind_looks fun next => Runs.ite (Runs.advance (by simp) ?_) Runs.done
  refine Runs.look (fun s => ⟨_, s, rfl, rfl, rfl⟩) fun k => ?_
  exact Runs.bind (parseProcDecl_safe h _ _ _ _) fun d => Runs.pureSafe

theorem parseDeclBlock_safe (h : r.Return n) (inInterface : Bool) :
    Safe (n+1) (parseDeclBlock r inInterface) := by
  refine Runs.loop h.fuel (fun out => Runs.kinds fun k _ => ?_) []
  split
  · exact Runs.bindEaten (parseConstSection_starts h).eats fun decls => Runs.pureSafe
  · exact Runs.bindEaten (parseTypeSection_starts h).eats fun decls => Runs.pureSafe
  · exact Runs.bindEaten (parseVarSection_starts h).eats fun decls => Runs.pureSafe
  · exact Runs.bindEaten (parseLabelSection_starts h).eats fun decls => Runs.pureSafe
  · exact Runs.bindEaten (parseProcDecl_starts h _ _ _ _ (by simp)).eats fun d => Runs.pureSafe
  · exact Runs.bindEaten (parseProcDecl_starts h _ _ _ _ (by simp)).eats fun d => Runs.pureSafe
  · exact Runs.bindEaten (parseOperatorDecl_starts h _ (by simp)).eats fun d => Runs.pureSafe
  · exact parseClassProc_again h _ _
  · exact Runs.bindEaten (parseProcDecl_starts h _ _ _ _ (by simp)).eats fun d => Runs.pureSafe
  · exact Runs.bindEaten (parseProcDecl_starts h _ _ _ _ (by simp)).eats fun d => Runs.pureSafe
  · exact Runs.done

end
end Tp2cc
