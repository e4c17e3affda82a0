import Mathlib.Algebra.GroupWithZero.Nat
import Tp2cc.Parser.Stmt

set_option autoImplicit false

namespace Tp2cc
open Machine Parsing

inductive ProcModifierFlag where
  | virtual | abstract | override | final | forward | inline | cdecl | noreturn | assembler
  | overload
  deriving DecidableEq, Repr

def combineProcModifiers (base delta : ProcModifiers) : ProcModifiers where
  isVirtual := base.isVirtual || delta.isVirtual
  isAbstract := base.isAbstract || delta.isAbstract
  isOverride := base.isOverride || delta.isOverride
  isFinal := base.isFinal || delta.isFinal
  isForward := base.isForward || delta.isForward
  isInline := base.isInline || delta.isInline
  isCdecl := base.isCdecl || delta.isCdecl
  isNoreturn := base.isNoreturn || delta.isNoreturn
  isExternal := base.isExternal || delta.isExternal
  isAssembler := base.isAssembler || delta.isAssembler
  isOverload := base.isOverload || delta.isOverload
  externalLib := if delta.externalLib = "" then base.externalLib else delta.externalLib
  externalName := if delta.externalName = "" then base.externalName else delta.externalName

def procModifier : ProcModifierFlag → ProcModifiers
  | .virtual => { isVirtual := true }
  | .abstract => { isAbstract := true }
  | .override => { isOverride := true }
  | .final => { isFinal := true }
  | .forward => { isForward := true }
  | .inline => { isInline := true }
  | .cdecl => { isCdecl := true }
  | .noreturn => { isNoreturn := true }
  | .assembler => { isAssembler := true }
  | .overload => { isOverload := true }

def externalProcModifier (externalLib externalName : String) : ProcModifiers :=
  { isExternal := true, externalLib := externalLib, externalName := externalName }

def wordModifier : String → Option ProcModifiers
  | "virtual" => some (procModifier .virtual)
  | "abstract" => some (procModifier .abstract)
  | "override" => some (procModifier .override)
  | "final" => some (procModifier .final)
  | "dynamic" => some (procModifier .virtual)
  | "forward" => some (procModifier .forward)
  | "inline" => some (procModifier .inline)
  | "cdecl" => some (procModifier .cdecl)
  | "noreturn" => some (procModifier .noreturn)
  | "assembler" => some (procModifier .assembler)
  | "overload" => some (procModifier .overload)
  | "far" | "near" | "pascal" | "register" | "stdcall" | "safecall" | "interrupt" | "popstack"
  | "export" | "public" | "static" | "reintroduce" => some {}
  | _ => none

def operatorDeclTokenText (t : Token) : String :=
  match t.kind with
  | .assign => ":="
  | .plus => "+"
  | .minus => "-"
  | .star => "*"
  | .slash => "/"
  | .eq => "="
  | .lt => "<"
  | .gt => ">"
  | .ltEq => "<="
  | .gtEq => ">="
  | .notEq => "<>"
  | .kwDiv => "div"
  | .kwMod => "mod"
  | .kwAnd => "and"
  | .kwOr => "or"
  | .kwXor => "xor"
  | .kwShl => "shl"
  | .kwShr => "shr"
  | .ident => if t.text = "enumerator" then "enumerator" else ""
  | _ => ""

section
variable (r : Routines)

def acceptStringLit : P String := do
  let t ← cur
  if t.kind = .stringLit then do
    advance
    return t.text
  else return ""

def parseNames : P (List String) := do
  let t ← cur
  advance
  loop (fun names => do
    if ← accept .comma then do
      if ← check .ident then do
        let t ← cur
        advance
        return .again (names ++ [t.text])
      else return .done names
    else return .done names) r.fuel [t.text]

def parseNamePath (ctx : String) : P (List String) := do
  let first ← consumeNameOrDirective ctx
  loop (fun path => do
    if ← accept .dot then return .again (path ++ [← consumeNameOrDirective ctx])
    else return .done path) r.fuel [first]

def parseParamMode : P ParamMode := do
  if ← accept .kwVar then return .var
  else if ← accept .kwConst then return .const
  else if ← isDirectivePeek "constref" .ident then do
    advance
    return .constRef
  else if ← isDirectivePeek "out" .ident then do
    advance
    return .out
  else return .value

def parseParamNames : P (List String) := do
  if ← check .ident then parseNames r
  else return []

def parseParamType : P (Option TypeExpr) := do
  if ← accept .colon then do
    if ← check .kwArray then do
      advance
      expect .kwOf "open array parameter"
      return some (.tyArray [] (← r.parseType) false .open)
    else return some (← r.parseType)
  else return none

def parseParamDefault : P (Option Expr) := do
  if ← accept .eq then return some (← r.parseExpr)
  else return none

def parseParam : P Param := do
  let mode ← parseParamMode
  let names ← parseParamNames r
  let type ← parseParamType r
  return .mk mode names type (← parseParamDefault r)

def parseParamList (close : Tok) : P (List Param) :=
  loop (fun params => do
    if ← atEndOr [close] then return .done params
    else do
      let params := params ++ [← parseParam r]
      if ← accept .semi then return .again params
      else return .done params) r.fuel []

def parseFormalParamList : P (List Param) := parseParamList r .rParen

def parseOptionalParams (ctx : String) : P (List Param) := do
  if ← accept .lParen then do
    let params ← parseFormalParamList r
    expect .rParen ctx
    return params
  else return []

/-- Inside a type the next member may start with a word that is also a directive. -/
def startsTypeMember (inTypeMember : Bool) : P Bool := do
  if inTypeMember then do
    if ← isDirective "public" then return true
    else checkPeek .ident [.colon, .comma]
  else return false

def parseExternalModifier : P ProcModifiers := do
  let externalLib ← acceptStringLit
  if ← isDirective "name" then do
    advance
    return externalProcModifier externalLib (← acceptStringLit)
  else return externalProcModifier externalLib ""

def skipMessageNumber : P Unit := do
  if ← checkAny [.intLit, .ident, .stringLit] then advance
  else return ()

def skipAliasName : P Unit := do
  if ← accept .colon then do
    let _ ← acceptStringLit
    return ()
  else return ()

def parseModifierWord (word : String) : P (Option ProcModifiers) :=
  match wordModifier word with
  | some m => do
    advance
    return some m
  | none =>
    if word = "message" then do
      advance
      skipMessageNumber
      return some (procModifier .virtual)
    else if word = "external" then do
      advance
      return some (← parseExternalModifier)
    else if word = "alias" then do
      advance
      skipAliasName
      return some {}
    else if word ∈ ["name", "deprecated", "platform", "library", "experimental"] then do
      advance
      let _ ← acceptStringLit
      return some {}
    else return none

def parseProcModifier (inTypeMember : Bool) : P (Option ProcModifiers) := do
  if ← startsTypeMember inTypeMember then return none
  else if ← check .ident then do
    let t ← cur
    parseModifierWord t.text
  else return none

/-- The source's tail recursion, as a loop. -/
def parseProcModifiers (modifiers : ProcModifiers) (inTypeMember : Bool) : P ProcModifiers :=
  loop (fun modifiers => do
    match ← parseProcModifier inTypeMember with
    | none => return .done modifiers
    | some delta => do
      let _ ← accept .semi
      return .again (combineProcModifiers modifiers delta)) r.fuel modifiers

/-- The semicolon after the header may be left out before a directive. -/
def parseProcHeaderTail (ctx : String) (inTypeMember : Bool) : P ProcModifiers := do
  if ← accept .semi then parseProcModifiers r {} inTypeMember
  else
    match ← parseProcModifier inTypeMember with
    | none => do
      expect .semi ctx
      return {}
    | some first => do
      let _ ← accept .semi
      parseProcModifiers r first inTypeMember

def parseProcReturnType : ProcKind → P (Option TypeExpr)
  | .function => do
    expect .colon "function return type"
    return some (← r.parseType)
  | .constructor => do
    if ← accept .colon then return some (← r.parseType)
    else return none
  | .procedure => return none
  | .destructor => return none

/-- Interface sections have no bodies, nor have forward, external and abstract routines. -/
def parseProcBody (ctx : String) (inInterface : Bool) (modifiers : ProcModifiers) :
    P (List Decl × Option Stmt) :=
  if inInterface || modifiers.isForward || modifiers.isExternal || modifiers.isAbstract then
    return ([], none)
  else do
    let locals ← r.parseDeclBlock false
    if ← check .kwBegin then do
      let body ← parseCompoundStatement r
      expect .semi ctx
      return (locals, some body)
    else if ← check .kwAsm then do
      let body ← parseAsm r
      expect .semi ctx
      return (locals, some body)
    else return (locals, none)

def Param.count : Param → Nat
  | .mk _ names _ _ => if names.isEmpty then 1 else names.length

/-- `TOuter.TInner` of the segments before the routine's own name. -/
def joinOwner (segments : List String) : String :=
  segments.foldl (fun ofType s => (if ofType = "" then ofType else ofType ++ ".") ++ s) ""

def parseProcDeclTail (pk : ProcKind) (inInterface isClassMethod inTypeMember : Bool) : P Decl := do
  let path ← parseNamePath r "routine name"
  let params ← parseOptionalParams r "parameter list"
  let returnType ← parseProcReturnType r pk
  let classLifecycle := isClassMethod && (pk = .constructor || pk = .destructor)
  reportIf (classLifecycle && (params.map Param.count).sum ≠ 0)
    "class constructors and destructors cannot have parameters"
  reportIf (classLifecycle && returnType.isSome) "class constructors cannot have a return type"
  let modifiers ← parseProcHeaderTail r "routine header" inTypeMember
  let body ← parseProcBody r "routine body" inInterface modifiers
  return .procDecl pk (path.getLastD "") false "" (joinOwner path.dropLast) isClassMethod params
    returnType modifiers body.1 body.2

def parseProcDecl (pk : ProcKind) (inInterface isClassMethod inTypeMember : Bool) : P Decl := do
  advance
  parseProcDeclTail r pk inInterface isClassMethod inTypeMember

def parseOperatorToken : P String := do
  let opText := operatorDeclTokenText (← cur)
  if opText = "" then do
    reportError "expected operator token after 'operator'"
    return opText
  else do
    advance
    return opText

def parseOperatorDecl (inInterface : Bool) : P Decl := do
  advance
  let opText ← parseOperatorToken
  let params ← parseOptionalParams r "operator parameter list"
  expect .colon "operator return type"
  let returnType ← r.parseType
  let modifiers ← parseProcHeaderTail r "operator header" false
  let body ← parseProcBody r "operator body" inInterface modifiers
  return .procDecl .function ("operator_" ++ opText) true opText "" false params (some returnType)
    modifiers body.1 body.2

end

section
variable {r : Routines} {n : Nat} {K : Tok → Prop}

theorem acceptStringLit_safe : Runs K n (fun _ => False) acceptStringLit := by
  refine Runs.look cur_looks fun t => Runs.ite ?_ Runs.pureSafe
  exact Runs.bind advance_safe fun _ => Runs.pureSafe

theorem parseNames_eats (h : r.Return n) (hK : ∀ k, K k → k ≠ .eof) :
    Runs K n (fun _ => True) (parseNames r) := by
  refine Runs.look cur_looks fun t => Runs.advanceSafe hK (Runs.loop h.fuel_le (fun names => ?_) _)
  refine Runs.acceptSafe (by decide) (Runs.test (check_tests _) ?_ Runs.pureSafe) Runs.done
  exact Runs.look cur_looks fun t => Runs.advanceSafe (by simp) Runs.pureSafe

theorem parseNamePath_safe (h : r.Return n) (ctx : String) : Safe n (parseNamePath r ctx) := by
  refine Runs.bind (consumeIdent_safe _) fun first => Runs.loop h.fuel_le (fun path => ?_) _
  exact Runs.acceptSafe (by decide) (Runs.bind (consumeIdent_safe _) fun _ => Runs.pureSafe) Runs.done

theorem parseParamMode_safe : Safe n parseParamMode := by
  refine Runs.acceptSafe (by decide) Runs.pureSafe (Runs.acceptSafe (by decide) Runs.pureSafe ?_)
  refine Runs.test (isDirectivePeek_tests _ _) ?_ (Runs.test (isDirectivePeek_tests _ _) ?_ ?_)
  · exact Runs.bind advance_safe fun _ => Runs.pureSafe
  · exact Runs.bind advance_safe fun _ => Runs.pureSafe
  · exact Runs.pureSafe

theorem parseParamNames_safe (h : r.Return n) : Safe n (parseParamNames r) :=
  Runs.test (check_tests _) (parseNames_eats h (by simp +contextual)).forget Runs.pureSafe

theorem parseParamType_safe (h : r.Return n) : Safe n (parseParamType r) := by
  refine Runs.acceptSafe (by decide) (Runs.test (check_tests _) ?_ (Safe.at ?_)) Runs.pureSafe
  · refine Runs.bind advance_safe fun _ => Runs.expect ?_
    exact Runs.bind h.parseType fun element => Runs.pureSafe
  · exact Runs.bind h.parseType fun type => Runs.pureSafe

theorem parseParamDefault_safe (h : r.Return n) : Safe n (parseParamDefault r) :=
  Runs.acceptSafe (by decide) (Runs.bind h.parseExpr fun _ => Runs.pureSafe) Runs.pureSafe

theorem parseParam_safe (h : r.Return n) : Safe n (parseParam r) := by
  refine Runs.bind parseParamMode_safe fun mode => ?_
  refine Runs.bind (parseParamNames_safe h) fun names => ?_
  refine Runs.bind (parseParamType_safe h) fun type => ?_
  exact Runs.bind (parseParamDefault_safe h) fun defaultValue => Runs.pureSafe

theorem parseParamList_safe (h : r.Return n) (close : Tok) : Safe n (parseParamList r close) := by
  refine Runs.loop h.fuel_le (fun params => ?_) []
  refine Runs.test (atEndOr_tests _) Runs.done ?_
  exact Runs.bind (parseParam_safe h).at fun p => Runs.acceptSafe (by decide) Runs.pureSafe Runs.done

theorem parseOptionalParams_safe (h : r.Return n) (ctx : String) :
    Safe n (parseOptionalParams r ctx) := by
  refine Runs.acceptSafe (by decide) ?_ Runs.pureSafe
  exact Runs.bind (parseParamList_safe h _) fun params => Runs.closed

theorem startsTypeMember_safe (inTypeMember : Bool) :
    Runs K n (fun _ => False) (startsTypeMember inTypeMember) := by
  refine Runs.ite (Runs.test (isDirective_tests _) Runs.pureSafe ?_) Runs.pureSafe
  exact (checkPeek_tests _ _).looks.safe

theorem parseExternalModifier_safe : Safe n parseExternalModifier := by
  refine Runs.bind acceptStringLit_safe fun externalLib => ?_
  refine Runs.test (isDirective_tests _) (Runs.bind advance_safe fun _ => ?_) Runs.pureSafe
  exact Runs.bind acceptStringLit_safe fun externalName => Runs.pureSafe

theorem skipMessageNumber_safe : Safe n skipMessageNumber :=
  Runs.test (checkAny_tests _) advance_safe Runs.pureSafe

theorem skipAliasName_safe : Safe n skipAliasName :=
  Runs.acceptSafe (by decide) (Runs.bind acceptStringLit_safe fun _ => Runs.pureSafe) Runs.pureSafe

theorem parseModifierWord_eats (word : String) :
    Runs (· = .ident) n (·.isSome = true) (parseModifierWord word) := by
  unfold parseModifierWord
  split
  · exact Runs.advanceSafe (by simp) Runs.pureSafe
  · refine Runs.ite ?_ (Runs.ite ?_ (Runs.ite ?_ (Runs.ite ?_ (Runs.pure (by simp)))))
    · exact Runs.advanceSafe (by simp) (Runs.bind skipMessageNumber_safe fun _ => Runs.pureSafe)
    · exact Runs.advanceSafe (by simp) (Runs.bind parseExternalModifier_safe fun _ => Runs.pureSafe)
    · exact Runs.advanceSafe (by simp) (Runs.bind skipAliasName_safe fun _ => Runs.pureSafe)
    · exact Runs.advanceSafe (by simp) (Runs.bind acceptStringLit_safe fun _ => Runs.pureSafe)

theorem parseProcModifier_eats (inTypeMember : Bool) :
    Runs (fun _ => True) n (·.isSome = true) (parseProcModifier inTypeMember) := by
  refine Runs.bind (startsTypeMember_safe _) fun b => Runs.ite (Runs.pure (by simp)) ?_
  refine Runs.test (check_tests _) (Runs.look cur_looks fun t => ?_) (Runs.pure (by simp))
  exact (parseModifierWord_eats _).mono (fun _ h => h.2) (Nat.le_refl _) fun _ => id

theorem parseProcModifiers_safe (h : r.Return n) (modifiers : ProcModifiers)
    (inTypeMember : Bool) : Safe n (parseProcModifiers r modifiers inTypeMember) := by
  refine Runs.loop h.fuel_le (fun modifiers => ?_) _
  refine Runs.bindOf (parseProcModifier_eats _) fun delta => ?_
  cases delta with
  | none => exact Runs.pure fun h => h.1
  | some delta =>
    refine Safe.paid ?_ fun _ h => h.2 rfl
    exact Runs.bind (accept_safe _) fun _ => Runs.pureSafe

theorem parseProcHeaderTail_safe (h : r.Return n) (ctx : String) (inTypeMember : Bool) :
    Safe n (parseProcHeaderTail r ctx inTypeMember) := by
  refine Runs.acceptSafe (by decide) (parseProcModifiers_safe h _ _) ?_
  refine Runs.bind (parseProcModifier_eats _).forget fun first => ?_
  cases first with
  | none => exact Runs.closed
  | some first => exact Runs.bind (accept_safe _) fun _ => parseProcModifiers_safe h _ _

theorem parseProcReturnType_safe (h : r.Return n) (pk : ProcKind) :
    Safe n (parseProcReturnType r pk) := by
  have some_type : Safe n (do return some (← r.parseType)) :=
    Runs.bind h.parseType fun _ => Runs.pureSafe
  cases pk with
  | function => exact Runs.expect some_type
  | constructor => exact Runs.acceptSafe (by decide) some_type Runs.pureSafe
  | procedure => exact Runs.pureSafe
  | destructor => exact Runs.pureSafe

theorem parseProcBody_safe (h : r.Return n) (ctx : String) (inInterface : Bool)
    (modifiers : ProcModifiers) : Safe n (parseProcBody r ctx inInterface modifiers) := by
  refine Runs.ite Runs.pureSafe (Runs.bind (h.parseDeclBlock _) fun locals => ?_)
  refine Runs.test (check_tests _) ?_ (Runs.test (check_tests _) ?_ Runs.pureSafe)
  · refine Runs.bind ?_ fun body => Runs.closed
    exact (parseCompoundStatement_starts h).safe.at
  · refine Runs.bind ?_ fun body => Runs.closed
    exact (parseAsm_starts h).safe.at

theorem parseProcDeclTail_safe (h : r.Return n) (pk : ProcKind)
    (inInterface isClassMethod inTypeMember : Bool) :
    Safe n (parseProcDeclTail r pk inInterface isClassMethod inTypeMember) := by
  refine Runs.bind (parseNamePath_safe h _) fun path => ?_
  refine Runs.bind (parseOptionalParams_safe h _) fun params => ?_
  refine Runs.bind (parseProcReturnType_safe h pk) fun returnType => ?_
  refine Runs.look (reportIf_looks _ _) fun _ => Runs.look (reportIf_looks _ _) fun _ => ?_
  refine Runs.bind (parseProcHeaderTail_safe h _ _) fun modifiers => ?_
  exact Runs.bind (parseProcBody_safe h _ _ _) fun body => Runs.pureSafe

theorem parseProcDecl_starts (h : r.Return n) (pk : ProcKind)
    (inInterface isClassMethod inTypeMember : Bool)
    (hK : ∀ k, K k → k ≠ .eof) :
    Starts K n (parseProcDecl r pk inInterface isClassMethod inTypeMember) :=
  Starts.advance hK (parseProcDeclTail_safe h _ _ _ _)

theorem parseProcDecl_safe (h : r.Return n) (pk : ProcKind)
    (inInterface isClassMethod inTypeMember : Bool) :
    Safe n (parseProcDecl r pk inInterface isClassMethod inTypeMember) :=
  (parseProcDecl_starts h _ _ _ _ fun _ h => absurd h id : Starts (fun _ => False) n _).safe

theorem parseOperatorToken_safe : Safe n parseOperatorToken := by
  refine Runs.look cur_looks fun t => Runs.ite ?_ ?_
  · exact Runs.look (reportError_looks _) fun _ => Runs.pureSafe
  · exact Runs.bind advance_safe fun _ => Runs.pureSafe

theorem parseOperatorDecl_starts (h : r.Return n) (inInterface : Bool)
    (hK : ∀ k, K k → k ≠ .eof) :
    Starts K n (parseOperatorDecl r inInterface) := by
  refine Starts.advance hK (Runs.bind parseOperatorToken_safe fun opText => ?_)
  refine Runs.bind (parseOptionalParams_safe h _) fun params => Runs.expect ?_
  refine Runs.bind h.parseType fun returnType => ?_
  refine Runs.bind (parseProcHeaderTail_safe h _ _) fun modifiers => ?_
  exact Runs.bind (parseProcBody_safe h _ _ _) fun body => Runs.pureSafe

theorem parseOperatorDecl_safe (h : r.Return n) (inInterface : Bool) :
    Safe n (parseOperatorDecl r inInterface) :=
  (parseOperatorDecl_starts h _ fun _ h => absurd h id : Starts (fun _ => False) n _).safe

end
end Tp2cc
