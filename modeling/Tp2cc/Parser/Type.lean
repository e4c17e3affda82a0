import Tp2cc.Parser.Proc

set_option autoImplicit false

namespace Tp2cc
open Machine Parsing

def isSubrangeBoundIntrinsic (name : String) : Bool :=
  name ∈ ["low", "high", "pred", "succ", "sizeof", "ord"]

def isConstantSubrangeBoundExpr : Expr → Bool
  | .ident _ => true
  | .intLit _ => true
  | .stringLit _ => true
  | .boolLit _ => true
  | .member _ _ => true
  | .unary _ operand _ => isConstantSubrangeBoundExpr operand
  | .binary _ lhs rhs _ => isConstantSubrangeBoundExpr lhs && isConstantSubrangeBoundExpr rhs
  | .call (.ident name) [arg] _ _ _ _ =>
    isSubrangeBoundIntrinsic name && isConstantSubrangeBoundExpr arg
  | _ => false

inductive MemberBlock where
  | general | type
  deriving DecidableEq, Repr

section
variable (r : Routines)

def nextTypeSectionId : P Nat := fun s =>
  some (s.nextTypeSectionId, { s with nextTypeSectionId := s.nextTypeSectionId+1 })

def identifierEndsNestedTypeBlock (t : Token) : Bool :=
  t.kind = .ident ∧
    t.text ∈ ["private", "protected", "public", "published", "strict", "final", "property"]

def inTypeBlock (block : MemberBlock) : P Bool := fun s =>
  some (decide (block = .type ∧ s.cur.kind = .ident ∧ identifierEndsNestedTypeBlock s.cur = false),
    s)

def parseTypeDeclFromCurrentIdent (ctx : String) (typeSectionId : Nat) : P Decl := do
  let name ← consumeIdent ctx
  expect .eq ctx
  let type ← r.parseType
  expect .semi ctx
  return .typeDecl name type typeSectionId

def parseSubrangeType (lo : Expr) : P TypeExpr := do
  reportIf (!isConstantSubrangeBoundExpr lo) "non-constant subrange bound"
  expect .dotDot "subrange"
  let hi ← parseSubrangeBound r
  reportIf (!isConstantSubrangeBoundExpr hi) "non-constant subrange bound"
  return .tySubrange lo hi

def parseEnumValue : P (Option Expr) := do
  if ← accept .assign then return some (← r.parseExpr)
  else if ← accept .eq then return some (← r.parseExpr)
  else return none

def parseEnumMembers : P (List EnumMember) :=
  loop (fun members => do
    if ← check .ident then do
      let t ← cur
      advance
      let members := members ++ [⟨t.text, ← parseEnumValue r⟩]
      if ← accept .comma then return .again members
      else return .done members
    else return .done members) r.fuel []

def parseTypeName : P TypeExpr := do
  let t ← cur
  advance
  let name ← loop (fun name => do
    if ← accept .dot then do
      if ← check .ident then do
        let t ← cur
        advance
        return .again (name ++ "." ++ t.text)
      else return .done name
    else return .done name) r.fuel t.text
  return .tyName name

/-- An intrinsic that may stand in a type bound is at the current token, with its argument. -/
def startsIntrinsicBound : P Bool := do
  if ← checkPeek .ident [.lParen] then return isSubrangeBoundIntrinsic (← cur).text
  else return false

def parseSimpleType : P TypeExpr := do
  if ← accept .lParen then do
    let members ← parseEnumMembers r
    expect .rParen "enumeration"
    return .tyEnum ((← packenumActive) % 256) members
  else if ← check .ident then do
    if ← checkPeek .ident [.dotDot] then do
      parseSubrangeType r (← parseSubrangeBound r)
    else if ← startsIntrinsicBound then do
      parseSubrangeType r (← parseSubrangeBound r)
    else parseTypeName r
  else do
    parseSubrangeType r (← parseSubrangeBound r)

def parseDims : P (List TypeExpr) :=
  loop (fun dims => do
    if ← atEndOr [.rBrack] then return .done dims
    else do
      let dims := dims ++ [← parseSimpleType r]
      if ← accept .comma then return .again dims
      else return .done dims) r.fuel []

def parseArrayType (isPacked : Bool) : P TypeExpr := do
  expect .kwArray "array"
  if ← accept .lBrack then do
    let dims ← parseDims r
    expect .rBrack "array dimensions"
    expect .kwOf "array"
    return .tyArray dims (← r.parseType) isPacked .fixed
  else do
    expect .kwOf "array"
    return .tyArray [] (← r.parseType) isPacked .dynamic

def parseTagName : P String := do
  if ← checkPeek .ident [.colon] then do
    let t ← cur
    advance
    advance
    return t.text
  else return ""

def parseVariantFields : P (List RecordField) :=
  loop (fun fields => do
    if ← atEndOr [.rParen, .kwCase] then return .done fields
    else if ← check .ident then do
      let names ← parseNames r
      expect .colon "variant field"
      let fields := fields ++ [.mk names (← r.parseType)]
      if ← accept .semi then return .again fields
      else return .done fields
    else return .done fields) r.fuel []

def parseVariantCase : P VariantCase := do
  let labels ← moreAfterCommas r r.parseExpr [← r.parseExpr]
  expect .colon "variant case"
  expect .lParen "variant case"
  let fields ← parseVariantFields r
  let variantPart ← r.parseVariantPart
  expect .rParen "variant case"
  return .mk labels fields variantPart

def parseVariantCases : P (List VariantCase) :=
  loop (fun cases => do
    if ← atEndOr [.kwEnd, .rParen] then return .done cases
    else do
      let cases := cases ++ [← parseVariantCase r]
      if ← accept .semi then return .again cases
      else return .done cases) r.fuel []

def parseVariantPart : P (Option VariantPart) := do
  if ← accept .kwCase then do
    let tagName ← parseTagName
    let tagType ← r.parseType
    expect .kwOf "variant record"
    return some (.mk tagName tagType (← parseVariantCases r))
  else return none

structure RecordMembers where
  fields : List RecordField := []
  nestedTypes : List Decl := []
  memberOrder : List RecordMember := []
  block : MemberBlock := .general
  typeSectionId : Nat := 0

def RecordMembers.addField (m : RecordMembers) (f : RecordField) : RecordMembers :=
  { m with fields := m.fields ++ [f], memberOrder := m.memberOrder ++ [⟨.field, m.fields.length⟩] }

def RecordMembers.addType (m : RecordMembers) (d : Decl) : RecordMembers :=
  { m with
    nestedTypes := m.nestedTypes ++ [d]
    memberOrder := m.memberOrder ++ [⟨.type, m.nestedTypes.length⟩] }

def parseRecordMembers : P RecordMembers :=
  loop (fun (m : RecordMembers) => do
    if ← atEndOr [.kwEnd, .kwCase] then return .done m
    else if ← accept .kwType then
      return .again { m with block := .type, typeSectionId := ← nextTypeSectionId }
    else if ← accept .kwVar then return .again { m with block := .general }
    else if ← isAnyDirective ["private", "protected", "public", "published"] then do
      advance
      return .again { m with block := .general }
    else if ← isDirective "strict" then do
      advance
      if ← isAnyDirective ["private", "protected"] then do
        advance
        return .again { m with block := .general }
      else return .again { m with block := .general }
    else if ← check .ident then do
      if ← inTypeBlock m.block then
        return .again (m.addType
          (← parseTypeDeclFromCurrentIdent r "nested record type decl" m.typeSectionId))
      else do
        let names ← parseNames r
        expect .colon "record field"
        let m := m.addField (.mk names (← r.parseType))
        if ← accept .semi then return .again m
        else return .done m
    else return .done m) r.fuel {}

def parseRecordType (isPacked : Bool) : P TypeExpr := do
  expect .kwRecord "record"
  let m ← parseRecordMembers r
  let variantPart ← parseVariantPart r
  expect .kwEnd "record"
  return .tyRecord m.fields m.nestedTypes m.memberOrder variantPart isPacked

def procKeywords : List Tok := [.kwProcedure, .kwFunction, .kwConstructor, .kwDestructor]

def procKindOf : Tok → ProcKind
  | .kwFunction => .function
  | .kwConstructor => .constructor
  | .kwDestructor => .destructor
  | _ => .procedure

structure ObjectMembers where
  vis : Visibility := .publicSection
  classVarSection : Bool := false
  block : MemberBlock := .general
  typeSectionId : Nat := 0
  members : List ObjectMember := []

def ObjectMembers.add (m : ObjectMembers) (member : ObjectMember) : ObjectMembers :=
  { m with members := m.members ++ [member] }

/-- A visibility word starts ordinary members again. -/
def ObjectMembers.startSection (m : ObjectMembers) (vis : Visibility) : ObjectMembers :=
  { m with vis := vis, classVarSection := false, block := .general }

def visibilityOf : String → Visibility
  | "private" => .privateSection
  | "protected" => .protectedSection
  | _ => .publicSection

def parseStrictVisibility (vis : Visibility) : P Visibility := do
  if ← isDirective "private" then do
    advance
    return .strictPrivate
  else if ← isDirective "protected" then do
    advance
    return .strictProtected
  else do
    reportError "expected `private' or `protected' after `strict'"
    return vis

def parseObjectMethod (isClassMethod : Bool) (m : ObjectMembers) : P ObjectMembers := do
  let pk := procKindOf (← curKind)
  return m.add (.method m.vis (← parseProcDecl r pk true isClassMethod true))

def parseClassMember (isReferenceType : Bool) (m : ObjectMembers) :
    P (LoopStep ObjectMembers ObjectMembers) := do
  advance
  if ← check .kwVar then do
    advance
    if isReferenceType then return .again { m with classVarSection := true, block := .general }
    else do
      reportError "`class var' is only valid in class types"
      return .again m
  else if ← checkAny procKeywords then return .again (← parseObjectMethod r true m)
  else do
    reportError ("expected `procedure', `function', `constructor', " ++
      "`destructor', or `var' after `class'")
    return .done m

structure Accessors where
  read : Option (List String) := none
  write : Option (List String) := none

def wantsAccessor (seen : Option (List String)) (name : String) : P Bool := do
  if seen.isSome then return false
  else isDirective name

def parseAccessors : P Accessors :=
  loop (fun (a : Accessors) => do
    if ← wantsAccessor a.read "read" then do
      advance
      return .again { a with read := some (← parseNamePath r "property read accessor") }
    else if ← wantsAccessor a.write "write" then do
      advance
      return .again { a with write := some (← parseNamePath r "property write accessor") }
    else return .done a) r.fuel {}

structure PropertyTail where
  consumedTailSemi : Bool := false
  isDefault : Bool := false

def parsePropertyTail : P Bool := do
  let tail ← loop (fun (t : PropertyTail) => do
    if ← accept .semi then do
      if ← isDirective "default" then do
        advance
        return .again ⟨true, true⟩
      else return .done { t with consumedTailSemi := true }
    else return .done t) r.fuel {}
  if tail.consumedTailSemi then return tail.isDefault
  else do
    expect .semi "property"
    return tail.isDefault

def parsePropertyParams : P (List Param) := do
  if ← accept .lBrack then do
    let params ← parseParamList r .rBrack
    expect .rBrack "property index list"
    return params
  else return []

def parseProperty (m : ObjectMembers) : P ObjectMembers := do
  advance
  let name ← consumeNameOrDirective "property name"
  let params ← parsePropertyParams r
  expect .colon "property"
  let type ← r.parseType
  let accessors ← parseAccessors r
  reportIf (accessors.read.isNone && accessors.write.isNone)
    "expected property accessor in declaration"
  let isDefault ← parsePropertyTail r
  return m.add (.property m.vis name params type (accessors.read.getD []) (accessors.write.getD [])
    isDefault)

def parseObjectField (m : ObjectMembers) : P (LoopStep ObjectMembers ObjectMembers) := do
  let names ← parseNames r
  expect .colon "object field"
  let m := m.add (.field m.vis names (← r.parseType) m.classVarSection)
  if ← accept .semi then return .again m
  else return .done m

def parseObjectMembers (isReferenceType : Bool) : P ObjectMembers :=
  loop (fun (m : ObjectMembers) => do
    if ← atEndOr [.kwEnd] then return .done m
    else if ← isAnyDirective ["public", "private", "protected", "published"] then do
      let t ← cur
      advance
      return .again (m.startSection (visibilityOf t.text))
    else if ← isDirective "strict" then do
      advance
      return .again (m.startSection (← parseStrictVisibility m.vis))
    else if ← accept .kwType then
      return .again { m with
        classVarSection := false, block := .type, typeSectionId := ← nextTypeSectionId }
    else if ← accept .kwVar then
      return .again { m with classVarSection := false, block := .general }
    else if ← inTypeBlock m.block then
      return .again (m.add (.typeDecl m.vis
        (← parseTypeDeclFromCurrentIdent r "nested object type decl" m.typeSectionId)))
    else if ← check .kwClass then parseClassMember r isReferenceType m
    else if ← checkAny procKeywords then return .again (← parseObjectMethod r false m)
    else if ← isDirective "property" then return .again (← parseProperty r m)
    else if ← check .ident then parseObjectField r m
    else return .done m) r.fuel {}

structure ObjectHeader where
  isReferenceType : Bool
  isAbstract : Bool

def parseObjectHeader : P ObjectHeader := do
  if ← check .kwClass then do
    expect .kwClass "class"
    if ← isDirective "abstract" then do
      advance
      return ⟨true, true⟩
    else return ⟨true, false⟩
  else do
    expect .kwObject "object"
    return ⟨false, false⟩

/-- A class type that ends where its members would start. -/
def startsForwardClass (isReferenceType : Bool) : P Bool := do
  if isReferenceType then check .semi
  else return false

def parseAncestors : P (String × List String) := do
  if ← accept .lParen then do
    let parent ← consumeIdent "parent class"
    let interfaces ← moreAfterCommas r (consumeIdent "implemented interface") []
    expect .rParen "parent class"
    return (parent, interfaces)
  else return ("", [])

/-- `T = class;` announces a class, `T = class(Base);` declares an empty one. -/
def parseObjectType : P TypeExpr := do
  let header ← parseObjectHeader
  let (parent, interfaces) ← parseAncestors r
  if ← startsForwardClass header.isReferenceType then
    return .tyObject parent interfaces [] true header.isAbstract (parent = "")
  else do
    let m ← parseObjectMembers r header.isReferenceType
    expect .kwEnd "object"
    return .tyObject parent interfaces m.members header.isReferenceType header.isAbstract false

def parseInterfaceMetadata : P String := do
  if ← accept .lBrack then do
    let t ← cur
    if t.kind = .stringLit then do
      advance
      expect .rBrack "interface metadata"
      return t.text
    else do
      reportError "expected interface metadata string"
      expect .rBrack "interface metadata"
      return ""
  else return ""

def parseInterfaceMembers : P (List ObjectMember) :=
  loop (fun members => do
    if ← atEndOr [.kwEnd] then return .done members
    else if ← checkAny [.kwProcedure, .kwFunction] then do
      let pk := procKindOf (← curKind)
      return .again (members ++ [.method .publicSection (← parseProcDecl r pk true false true)])
    else do
      reportError "expected interface method declaration"
      return .done members) r.fuel []

def parseInterfaceType : P TypeExpr := do
  expect .kwInterface "interface"
  reportIf ((← interfaceModeActive) ≠ .corba)
    "COM/refcounted interfaces are unsupported; use \x7b$interfaces corba\x7d"
  let metadata ← parseInterfaceMetadata
  let members ← parseInterfaceMembers r
  expect .kwEnd "interface"
  return .tyInterface metadata members

def parseSetType : P TypeExpr := do
  expect .kwSet "set"
  expect .kwOf "set"
  return .tySet (← parseSimpleType r)

def parseFileType : P TypeExpr := do
  expect .kwFile "file"
  if ← accept .kwOf then return .tyFile (some (← r.parseType))
  else return .tyFile none

def parseFunctionReturnType (isFunction : Bool) : P (Option TypeExpr) := do
  if isFunction then do
    expect .colon "function type"
    return some (← r.parseType)
  else return none

def parseOfObject : P Bool := do
  if ← accept .kwOf then do
    expect .kwObject "procedural type"
    return true
  else return false

/-- Calling conventions in type position need no semicolon. -/
def parseCallingConventions : P Bool :=
  loop (fun isCdecl => do
    if ← isAnyDirective ["cdecl", "pascal", "stdcall"] then do
      let t ← cur
      advance
      return .again (isCdecl || t.text = "cdecl")
    else return .done isCdecl) r.fuel false

def parseProceduralType : P TypeExpr := do
  let isFunction ← check .kwFunction
  advance
  let params ← parseOptionalParams r "procedural type"
  let returnType ← parseFunctionReturnType r isFunction
  let isMethod ← parseOfObject
  let isCdecl ← parseCallingConventions r
  return .tyProcedural isFunction params returnType isCdecl isMethod

/-- `class of T` is a metaclass, any other `class` a class type. -/
def parseClassType : P TypeExpr := do
  if (← peekKind) = .kwOf then do
    advance
    advance
    return .tyMetaclass (← consumeIdent "metaclass target")
  else parseObjectType r

/-- `string` is the string type of the mode that is active behind it. -/
def parseStringType : P TypeExpr := do
  let stringKeyword ← check .kwString
  advance
  if ← accept .lBrack then do
    let maxLength ← r.parseExpr
    expect .rBrack "string length"
    return .tyString maxLength
  else do
    let longStrings ← longStringsActive
    return .tyName (if stringKeyword && longStrings then "ansistring" else "shortstring")

def parseType : P TypeExpr := do
  if ← accept .caret then return .tyPointer (← r.parseType)
  else if ← accept .kwType then return .tyDistinct (← r.parseType)
  else do
    let isPacked ← accept .kwPacked
    match ← curKind with
    | .kwArray => parseArrayType r isPacked
    | .kwRecord => parseRecordType r isPacked
    | .kwObject => parseObjectType r
    | .kwInterface => parseInterfaceType r
    | .kwClass => parseClassType r
    | .kwSet => parseSetType r
    | .kwFile => parseFileType r
    | .kwProcedure | .kwFunction => parseProceduralType r
    | .kwString | .kwShortstring => parseStringType r
    | _ => parseSimpleType r

end

section
variable {r : Routines} {n : Nat} {K : Tok → Prop}

theorem nextTypeSectionId_looks : Looks nextTypeSectionId := fun _ => ⟨_, _, rfl, rfl, rfl⟩

theorem inTypeBlock_tests (block : MemberBlock) :
    Tests (· = .ident) (fun _ => True) (inTypeBlock block) := by
  intro s
  refine ⟨_, s, rfl, rfl, rfl, ?_⟩
  by_cases h : s.cur.kind = .ident <;> simp [kind_eq, h]

/-- The declaration starts with its name. -/
theorem parseTypeDeclFromCurrentIdent_eats (h : r.Return n) (ctx : String) (id : Nat) :
    Runs (· = .ident) n (fun _ => True) (parseTypeDeclFromCurrentIdent r ctx id) := by
  refine Runs.bindEatenSafe (consumeIdent_eats ctx) fun name => Runs.expect ?_
  exact Runs.bind h.parseType fun type => Runs.closed

theorem parseTypeDeclFromCurrentIdent_safe (h : r.Return n) (ctx : String) (id : Nat) :
    Safe n (parseTypeDeclFromCurrentIdent r ctx id) := by
  refine Runs.bind (consumeIdent_safe ctx) fun name => Runs.expect ?_
  exact Runs.bind h.parseType fun type => Runs.closed

theorem parseSubrangeType_safe (h : r.Return n) (lo : Expr) :
    Safe (n+1) (parseSubrangeType r lo) := by
  refine Runs.look (reportIf_looks _ _) fun _ => Runs.expect ?_
  refine Runs.bind (parseSimpleExpr_safe h) fun hi => ?_
  exact Runs.look (reportIf_looks _ _) fun _ => Runs.pureSafe

theorem parseEnumValue_safe (h : r.Return n) : Safe n (parseEnumValue r) := by
  refine Runs.acceptSafe (by decide) ?_ (Runs.acceptSafe (by decide) ?_ Runs.pureSafe)
  · exact Runs.bind h.parseExpr fun _ => Runs.pureSafe
  · exact Runs.bind h.parseExpr fun _ => Runs.pureSafe

theorem parseEnumMembers_safe (h : r.Return n) : Safe n (parseEnumMembers r) := by
  refine Runs.loop h.fuel_le (fun members => ?_) []
  refine Runs.test (check_tests _) (Runs.look cur_looks fun t => ?_) Runs.done
  refine Runs.bind advance_safe fun _ => Runs.bind (parseEnumValue_safe h) fun value => ?_
  exact Runs.acceptSafe (by decide) Runs.pureSafe Runs.done

theorem parseTypeName_safe (h : r.Return n) : Safe (n+1) (parseTypeName r) := by
  refine Runs.look cur_looks fun t => Runs.bind advance_safe fun _ => ?_
  refine Runs.bind (Runs.loop h.fuel (fun name => ?_) _) fun name => Runs.pureSafe
  refine Runs.acceptSafe (by decide) (Runs.test (check_tests _) ?_ Runs.pureSafe) Runs.done
  exact Runs.look cur_looks fun t => Runs.bind advance_safe fun _ => Runs.pureSafe

theorem startsIntrinsicBound_safe : Runs K n (fun _ => False) startsIntrinsicBound := by
  refine Runs.test (checkPeek_tests _ _) ?_ Runs.pureSafe
  exact Runs.look cur_looks fun t => Runs.pureSafe

theorem parseSimpleType_safe (h : r.Return n) : Safe (n+1) (parseSimpleType r) := by
  have subrange : Safe (n+1) (do parseSubrangeType r (← parseSubrangeBound r)) :=
    Runs.bind (parseSimpleExpr_safe h) fun lo => parseSubrangeType_safe h lo
  refine Runs.accept (by decide) ?_ (Runs.test (check_tests _) ?_ subrange.at)
  · refine Runs.bind (parseEnumMembers_safe h) fun members => Runs.expect ?_
    exact Runs.look packenumActive_looks fun _ => Runs.pureSafe
  · refine Runs.test (checkPeek_tests _ _) subrange.at ?_
    exact Runs.bind startsIntrinsicBound_safe fun b => Runs.ite subrange (parseTypeName_safe h)

theorem parseDims_safe (h : r.Return n) : Safe n (parseDims r) := by
  refine Runs.loop h.fuel_le (fun dims => ?_) []
  refine Runs.test (atEndOr_tests _) Runs.done (Runs.bind ?_ fun dim => ?_)
  · exact (parseSimpleType_safe h).mono (fun _ _ => trivial) (Nat.le_succ n) fun _ => id
  · exact Runs.acceptSafe (by decide) Runs.pureSafe Runs.done

theorem parseArrayType_starts (h : r.Return n) (isPacked : Bool) :
    Starts (· = .kwArray) n (parseArrayType r isPacked) := by
  refine Starts.expect (by decide) (Runs.acceptSafe (by decide) ?_ (Runs.expect ?_))
  · refine Runs.bind (parseDims_safe h) fun dims => Runs.expect (Runs.expect ?_)
    exact Runs.bind h.parseType fun element => Runs.pureSafe
  · exact Runs.bind h.parseType fun element => Runs.pureSafe

theorem parseTagName_safe : Safe n parseTagName := by
  refine Runs.test (checkPeek_tests _ _) (Runs.look cur_looks fun t => ?_) Runs.pureSafe
  exact Runs.bind advance_safe fun _ => Runs.bind advance_safe fun _ => Runs.pureSafe

theorem parseVariantFields_safe (h : r.Return n) : Safe n (parseVariantFields r) := by
  refine Runs.loop h.fuel_le (fun fields => ?_) []
  refine Runs.test (atEndOr_tests _) Runs.done (Runs.test (check_tests _) ?_ Runs.done)
  refine Runs.bind (parseNames_eats h (by simp +contextual)).forget fun names => Runs.expect ?_
  exact Runs.bind h.parseType fun type => Runs.acceptSafe (by decide) Runs.pureSafe Runs.done

theorem parseVariantCase_safe (h : r.Return n) : Safe n (parseVariantCase r) := by
  refine Runs.bind h.parseExpr fun first => ?_
  refine Runs.bind (moreAfterCommas_safe h h.parseExpr _) fun labels => ?_
  refine Runs.expect (Runs.expect (Runs.bind (parseVariantFields_safe h) fun fields => ?_))
  exact Runs.bind h.parseVariantPart fun variantPart => Runs.closed

theorem parseVariantCases_safe (h : r.Return n) : Safe n (parseVariantCases r) := by
  refine Runs.loop h.fuel_le (fun cases => ?_) []
  refine Runs.test (atEndOr_tests _) Runs.done ?_
  exact Runs.bind (parseVariantCase_safe h).at fun c => Runs.acceptSafe (by decide) Runs.pureSafe Runs.done

theorem parseVariantPart_safe (h : r.Return n) : Safe (n+1) (parseVariantPart r) := by
  refine Runs.accept (by decide) ?_ Runs.pureSafe
  refine Runs.bind parseTagName_safe fun tagName => Runs.bind h.parseType fun tagType => ?_
  exact Runs.expect (Runs.bind (parseVariantCases_safe h) fun cases => Runs.pureSafe)

theorem parseRecordMembers_safe (h : r.Return n) : Safe n (parseRecordMembers r) := by
  refine Runs.loop h.fuel_le (fun m => ?_) _
  refine Runs.test (atEndOr_tests _) Runs.done (Runs.acceptSafe (by decide) ?_ (Runs.acceptSafe (by decide) ?_ ?_))
  · exact Runs.look nextTypeSectionId_looks fun id => Runs.pureSafe
  · exact Runs.pureSafe
  · refine Runs.test (isAnyDirective_tests _) (Runs.advanceSafe (by simp) Runs.pureSafe) ?_
    refine Runs.test (isDirective_tests _) (Runs.advanceSafe (by simp) ?_) ?_
    · refine Runs.test (isAnyDirective_tests _) ?_ Runs.pureSafe
      exact Runs.bind advance_safe fun _ => Runs.pureSafe
    refine Runs.test (check_tests _) (Runs.test (inTypeBlock_tests _) ?_ ?_) Runs.done
    · refine Runs.bindEatenSafe ?_ fun d => Runs.pureSafe
      exact (parseTypeDeclFromCurrentIdent_eats h _ _).mono (fun _ h => h.2) (Nat.le_refl _)
        fun _ => id
    · refine Runs.bind (parseNames_eats h (by simp +contextual)).forget fun names => Runs.expect ?_
      exact Runs.bind h.parseType fun type => Runs.acceptSafe (by decide) Runs.pureSafe Runs.done

theorem parseRecordType_starts (h : r.Return n) (isPacked : Bool) :
    Starts (· = .kwRecord) n (parseRecordType r isPacked) := by
  refine Starts.expect (by decide) (Runs.bind (parseRecordMembers_safe h) fun m => Runs.bind ?_ fun vp => ?_)
  · exact (parseVariantPart_safe h).mono (fun _ => id) (Nat.le_succ n) fun _ => id
  · exact Runs.closed

theorem parseStrictVisibility_safe (vis : Visibility) : Safe n (parseStrictVisibility vis) := by
  refine Runs.test (isDirective_tests _) ?_ (Runs.test (isDirective_tests _) ?_ ?_)
  · exact Runs.bind advance_safe fun _ => Runs.pureSafe
  · exact Runs.bind advance_safe fun _ => Runs.pureSafe
  · exact Runs.look (reportError_looks _) fun _ => Runs.pureSafe

theorem parseObjectMethod_eats (h : r.Return n) (isClassMethod : Bool) (m : ObjectMembers) :
    Runs (· ∈ procKeywords) n (fun _ => True) (parseObjectMethod r isClassMethod m) := by
  refine Runs.kinds fun k hk => ?_
  refine Runs.bindEatenSafe ?_ fun d => Runs.pureSafe
  refine (parseProcDecl_starts h _ _ _ _ ?_).eats.mono (fun _ => id) (Nat.le_succ n) fun _ => id
  rintro _ rfl rfl
  simp [procKeywords] at hk

theorem parseClassMember_again (h : r.Return n) (isReferenceType : Bool) (m : ObjectMembers) :
    Runs (· = .kwClass) n Again (parseClassMember r isReferenceType m) := by
  refine Runs.advanceSafe (by simp) (Runs.test (check_tests _) ?_ (Runs.test (checkAny_tests _) ?_ ?_))
  · refine Runs.bind advance_safe fun _ => Runs.ite Runs.pureSafe ?_
    exact Runs.look (reportError_looks _) fun _ => Runs.pureSafe
  · refine Runs.bind ?_ fun m => Runs.pureSafe
    exact (parseObjectMethod_eats h _ _).mono (fun _ h => h.2) (Nat.le_refl _) fun _ => False.elim
  · exact Runs.look (reportError_looks _) fun _ => Runs.pureSafe

theorem wantsAccessor_tests (seen : Option (List String)) (name : String) :
    Tests (· = .ident) (fun _ => True) (wantsAccessor seen name) := by
  unfold wantsAccessor
  split
  · exact fun s => ⟨_, s, rfl, rfl, rfl, by simp⟩
  · exact isDirective_tests name

theorem parseAccessors_safe (h : r.Return n) : Safe n (parseAccessors r) := by
  refine Runs.loop h.fuel_le (fun a => ?_) _
  refine Runs.test (wantsAccessor_tests _ _) ?_ (Runs.test (wantsAccessor_tests _ _) ?_ Runs.done)
  · exact Runs.advanceSafe (by simp) (Runs.bind (parseNamePath_safe h _) fun path => Runs.pureSafe)
  · exact Runs.advanceSafe (by simp) (Runs.bind (parseNamePath_safe h _) fun path => Runs.pureSafe)

theorem parsePropertyTail_safe (h : r.Return n) : Safe n (parsePropertyTail r) := by
  refine Runs.bind (Runs.loop h.fuel_le (fun t => ?_) _) fun t => ?_
  · refine Runs.acceptSafe (by decide) (Runs.test (isDirective_tests _) ?_ Runs.pureSafe) Runs.done
    exact Runs.bind advance_safe fun _ => Runs.pureSafe
  · exact Runs.ite Runs.pureSafe Runs.closed

theorem parsePropertyParams_safe (h : r.Return n) : Safe n (parsePropertyParams r) :=
  Runs.acceptSafe (by decide) (Runs.bind (parseParamList_safe h _) fun params => Runs.closed) Runs.pureSafe

theorem parseProperty_eats (h : r.Return n) (m : ObjectMembers)
    (hK : ∀ k, K k → k ≠ .eof) :
    Runs K n (fun _ => True) (parseProperty r m) := by
  refine Runs.advanceSafe hK (Runs.bind (consumeIdent_safe _) fun name => ?_)
  refine Runs.bind (parsePropertyParams_safe h) fun params => Runs.expect ?_
  refine Runs.bind h.parseType fun type => Runs.bind (parseAccessors_safe h) fun accessors => ?_
  refine Runs.look (reportIf_looks _ _) fun _ => ?_
  exact Runs.bind (parsePropertyTail_safe h) fun isDefault => Runs.pureSafe

theorem parseObjectField_again (h : r.Return n) (m : ObjectMembers)
    (hK : ∀ k, K k → k ≠ .eof) :
    Runs K n Again (parseObjectField r m) := by
  refine Runs.bindEatenSafe (parseNames_eats h hK) fun names => Runs.expect ?_
  exact Runs.bind h.parseType fun type => Runs.acceptSafe (by decide) Runs.pureSafe Runs.pureSafe

/-- Every branch that goes on has consumed the word or the keyword that it was chosen by. -/
theorem parseObjectMembers_safe (h : r.Return n) (isReferenceType : Bool) :
    Safe n (parseObjectMembers r isReferenceType) := by
  refine Runs.loop h.fuel_le (fun m => ?_) _
  refine Runs.test (atEndOr_tests _) Runs.done (Runs.test (isAnyDirective_tests _) ?_ ?_)
  · exact Runs.look cur_looks fun t => Runs.advanceSafe (by simp +contextual) Runs.pureSafe
  refine Runs.test (isDirective_tests _) (Runs.advanceSafe (by simp +contextual) ?_) (Runs.acceptSafe (by decide) ?_ ?_)
  · exact Runs.bind (parseStrictVisibility_safe _) fun vis => Runs.pureSafe
  · exact Runs.look nextTypeSectionId_looks fun id => Runs.pureSafe
  refine Runs.acceptSafe (by decide) Runs.pureSafe (Runs.test (inTypeBlock_tests _) ?_ ?_)
  · refine Runs.bindEatenSafe ?_ fun d => Runs.pureSafe
    exact (parseTypeDeclFromCurrentIdent_eats h _ _).mono (fun _ h => h.2) (Nat.le_refl _)
      fun _ => id
  refine Runs.test (check_tests _) ?_ (Runs.test (checkAny_tests _) ?_ ?_)
  · exact (parseClassMember_again h _ _).mono (fun _ h => h.2) (Nat.le_refl _) fun _ => id
  · refine Runs.bindEatenSafe ?_ fun m => Runs.pureSafe
    exact (parseObjectMethod_eats h _ _).mono (fun _ h => h.2) (Nat.le_refl _) fun _ => id
  refine Runs.test (isDirective_tests _) ?_ (Runs.test (check_tests _) ?_ Runs.done)
  · exact Runs.bindEatenSafe (parseProperty_eats h _ (by simp +contextual)) fun m => Runs.pureSafe
  · exact parseObjectField_again h m (by simp +contextual)

theorem parseObjectHeader_starts (hK : ∀ k, K k → k = .kwClass ∨ k = .kwObject) :
    Starts K n parseObjectHeader := by
  refine Starts.test (check_tests _) (Starts.mono (Starts.expect (by decide) ?_) fun _ h => h.2)
    (Starts.mono (Starts.expect (by decide) Runs.pureSafe) fun k h => (hK k h.1).resolve_left h.2)
  refine Runs.test (isDirective_tests _) ?_ Runs.pureSafe
  exact Runs.bind advance_safe fun _ => Runs.pureSafe

theorem startsForwardClass_safe (isReferenceType : Bool) :
    Safe n (startsForwardClass isReferenceType) :=
  Runs.ite (check_tests _).looks.safe Runs.pureSafe

theorem parseAncestors_safe (h : r.Return n) : Safe n (parseAncestors r) := by
  refine Runs.acceptSafe (by decide) (Runs.bind (consumeIdent_safe _) fun parent => ?_) Runs.pureSafe
  exact Runs.bind (moreAfterCommas_safe h (consumeIdent_safe _) _) fun interfaces => Runs.closed

theorem parseObjectType_starts (h : r.Return n) (hK : ∀ k, K k → k = .kwClass ∨ k = .kwObject) :
    Starts K n (parseObjectType r) := by
  refine Starts.bind (parseObjectHeader_starts hK) fun header => ?_
  refine Runs.bind (parseAncestors_safe h) fun ancestors => ?_
  refine Runs.bind (startsForwardClass_safe _) fun b => Runs.ite Runs.pureSafe ?_
  exact Runs.bind (parseObjectMembers_safe h _) fun m => Runs.closed

theorem parseInterfaceMetadata_safe : Safe n parseInterfaceMetadata := by
  refine Runs.acceptSafe (by decide) (Runs.look cur_looks fun t => Runs.ite ?_ ?_) Runs.pureSafe
  · exact Runs.bind advance_safe fun _ => Runs.closed
  · exact Runs.look (reportError_looks _) fun _ => Runs.closed

theorem parseInterfaceMembers_safe (h : r.Return n) : Safe n (parseInterfaceMembers r) := by
  refine Runs.loop h.fuel_le (fun members => ?_) []
  refine Runs.test (atEndOr_tests _) Runs.done (Runs.test (checkAny_tests _) ?_ ?_)
  · refine Runs.kinds fun k hk => Runs.bindEatenSafe ?_ fun d => Runs.pureSafe
    refine (parseProcDecl_starts h _ _ _ _ ?_).eats.mono (fun _ => id) (Nat.le_succ n) fun _ => id
    exact fun _ hk' => hk' ▸ hk.1.2
  · exact Runs.look (reportError_looks _) fun _ => Runs.done

theorem parseInterfaceType_starts (h : r.Return n) :
    Starts (· = .kwInterface) n (parseInterfaceType r) := by
  refine Starts.expect (by decide) (Runs.look interfaceModeActive_looks fun mode => ?_)
  refine Runs.look (reportIf_looks _ _) fun _ => ?_
  refine Runs.bind parseInterfaceMetadata_safe fun metadata => ?_
  exact Runs.bind (parseInterfaceMembers_safe h) fun members => Runs.closed

theorem parseSetType_starts (h : r.Return n) :
    Starts (· = .kwSet) n (parseSetType r) := by
  refine Starts.expect (by decide) (Runs.expect (Runs.bind ?_ fun element => Runs.pureSafe))
  exact (parseSimpleType_safe h).mono (fun _ => id) (Nat.le_succ n) fun _ => id

theorem parseFileType_starts (h : r.Return n) :
    Starts (· = .kwFile) n (parseFileType r) := by
  refine Starts.expect (by decide) (Runs.acceptSafe (by decide) ?_ Runs.pureSafe)
  exact Runs.bind h.parseType fun element => Runs.pureSafe

theorem parseFunctionReturnType_safe (h : r.Return n) (isFunction : Bool) :
    Safe n (parseFunctionReturnType r isFunction) := by
  refine Runs.ite (Runs.expect ?_) Runs.pureSafe
  exact Runs.bind h.parseType fun type => Runs.pureSafe

theorem parseOfObject_safe : Safe n parseOfObject :=
  Runs.acceptSafe (by decide) Runs.closed Runs.pureSafe

theorem parseCallingConventions_safe (h : r.Return n) : Safe n (parseCallingConventions r) := by
  refine Runs.loop h.fuel_le (fun isCdecl => ?_) false
  refine Runs.test (isAnyDirective_tests _) (Runs.look cur_looks fun t => ?_) Runs.done
  exact Runs.advanceSafe (by simp) Runs.pureSafe

theorem parseProceduralType_starts (h : r.Return n)
    (hK : ∀ k, K k → k ≠ .eof) :
    Starts K n (parseProceduralType r) := by
  refine Starts.look (check_tests _).looks fun isFunction => Starts.advance hK ?_
  refine Runs.bind (parseOptionalParams_safe h _) fun params => ?_
  refine Runs.bind (parseFunctionReturnType_safe h _) fun returnType => ?_
  refine Runs.bind parseOfObject_safe fun isMethod => ?_
  exact Runs.bind (parseCallingConventions_safe h) fun isCdecl => Runs.pureSafe

theorem parseProceduralType_safe (h : r.Return n) : Safe n (parseProceduralType r) :=
  (parseProceduralType_starts h fun _ h => absurd h id : Starts (fun _ => False) n _).safe

theorem parseClassType_starts (h : r.Return n) :
    Starts (· = .kwClass) n (parseClassType r) := by
  refine Starts.look peekKind_looks fun k => Starts.ite ?_ ?_
  · refine Starts.advance (by simp) (Runs.bind advance_safe fun _ => ?_)
    exact Runs.bind (consumeIdent_safe _) fun name => Runs.pureSafe
  · exact parseObjectType_starts h fun _ => .inl

theorem parseStringType_starts (h : r.Return n)
    (hK : ∀ k, K k → k ≠ .eof) :
    Starts K n (parseStringType r) := by
  refine Starts.look (check_tests _).looks fun keyword => Starts.advance hK ?_
  refine Runs.acceptSafe (by decide) (Runs.bind h.parseExpr fun maxLength => Runs.closed) ?_
  exact Runs.look longStringsActive_looks fun _ => Runs.pureSafe

theorem parseType_safe (h : r.Return n) : Safe (n+1) (parseType r) := by
  have inner (f : TypeExpr → TypeExpr) : Safe n (do return f (← r.parseType)) :=
    Runs.bind h.parseType fun target => Runs.pureSafe
  refine Runs.accept (by decide) (inner .tyPointer) (Runs.accept (by decide) (inner .tyDistinct) ?_)
  refine Runs.bind (accept_safe _) fun isPacked => Runs.kinds fun k _ => ?_
  split
  · exact (parseArrayType_starts h _).forget
  · exact (parseRecordType_starts h _).forget
  · exact (parseObjectType_starts h fun _ => .inr).forget
  · exact (parseInterfaceType_starts h).forget
  · exact (parseClassType_starts h).forget
  · exact (parseSetType_starts h).forget
  · exact (parseFileType_starts h).forget
  · exact (parseProceduralType_starts h (by simp)).forget
  · exact (parseProceduralType_starts h (by simp)).forget
  · exact (parseStringType_starts h (by simp)).forget
  · exact (parseStringType_starts h (by simp)).forget
  · exact (parseSimpleType_safe h).at

end
end Tp2cc
