import Tp2cc.Parser.Unit

set_option autoImplicit false

namespace Tp2cc
open Machine Parsing

inductive ParserRoutine where
  | parse
  | parseUnitInterface
  | parseUnitImplementation
  | parseProgram
  | parseUsesClause
  | syncTo (stops : List Tok)
  | consumeIdent (ctx : String)
  | consumeNameOrDirective (ctx : String)
  | parsePropertyAccessorPath (ctx : String)
  | parseDeclBlock (inInterface : Bool)
  | parseConstSection
  | parseConstValue (target : Option TypeExpr)
  | parseTypeSection
  | parseTypeDeclFromCurrentIdent (ctx : String) (typeSectionId : Nat)
  | parseVarSection
  | parseLabelSection
  | parseProcDecl (pk : ProcKind) (inInterface isClassMethod inTypeMember : Bool)
  | parseOperatorDecl (inInterface : Bool)
  | parseProcModifier (inTypeMember : Bool)
  | parseProcModifiers (modifiers : ProcModifiers) (inTypeMember : Bool)
  | parseProcHeaderTail (ctx : String) (inTypeMember : Bool)
  | parseParamList (close : Tok)
  | parseFormalParamList
  | parseType
  | parseSimpleType
  | parseSubrangeType (lo : Expr)
  | parseRecordType (isPacked : Bool)
  | parseVariantPart
  | parseObjectType
  | parseInterfaceType
  | parseArrayType (isPacked : Bool)
  | parseSetType
  | parseFileType
  | parseProceduralType
  | parseStatement
  | parseStatementBlockUntil (stops : List Tok)
  | parseCompoundStatement
  | parseIf
  | parseWhile
  | parseRepeat
  | parseFor
  | parseCase
  | parseWith
  | parseAsm
  | parseTry
  | parseRaise
  | parseLabeledOrSimple
  | parseExpr
  | parseSubrangeBound
  | parseSimpleExpr
  | parseTerm
  | parseFactor
  | parsePrimary
  | parsePostfix (lhs : Expr)
  | parseSetLiteral

def dropResult {α : Type} (p : P α) : P Unit := (fun _ => ()) <$> p

def ParserRoutine.run (r : Routines) : ParserRoutine → P Unit
  | parse => dropResult (Tp2cc.parse r)
  | parseUnitInterface => dropResult (Tp2cc.parseUnitInterface r)
  | parseUnitImplementation => dropResult (Tp2cc.parseUnitImplementation r)
  | parseProgram => dropResult (Tp2cc.parseProgram r)
  | parseUsesClause => dropResult (Tp2cc.parseUsesClause r)
  | syncTo stops => dropResult (Tp2cc.syncTo r stops)
  | consumeIdent ctx => dropResult (Tp2cc.consumeIdent ctx)
  | consumeNameOrDirective ctx => dropResult (Tp2cc.consumeNameOrDirective ctx)
  | parsePropertyAccessorPath ctx => dropResult (parseNamePath r ctx)
  | parseDeclBlock inInterface => dropResult (Tp2cc.parseDeclBlock r inInterface)
  | parseConstSection => dropResult (Tp2cc.parseConstSection r)
  | parseConstValue target => dropResult (Tp2cc.parseConstValue r target)
  | parseTypeSection => dropResult (Tp2cc.parseTypeSection r)
  | parseTypeDeclFromCurrentIdent ctx id =>
    dropResult (Tp2cc.parseTypeDeclFromCurrentIdent r ctx id)
  | parseVarSection => dropResult (Tp2cc.parseVarSection r)
  | parseLabelSection => dropResult (Tp2cc.parseLabelSection r)
  | parseProcDecl pk inInterface isClassMethod inTypeMember =>
    dropResult (Tp2cc.parseProcDecl r pk inInterface isClassMethod inTypeMember)
  | parseOperatorDecl inInterface => dropResult (Tp2cc.parseOperatorDecl r inInterface)
  | parseProcModifier inTypeMember => dropResult (Tp2cc.parseProcModifier inTypeMember)
  | parseProcModifiers modifiers inTypeMember =>
    dropResult (Tp2cc.parseProcModifiers r modifiers inTypeMember)
  | parseProcHeaderTail ctx inTypeMember =>
    dropResult (Tp2cc.parseProcHeaderTail r ctx inTypeMember)
  | parseParamList close => dropResult (Tp2cc.parseParamList r close)
  | parseFormalParamList => dropResult (Tp2cc.parseFormalParamList r)
  | parseType => dropResult (Tp2cc.parseType r)
  | parseSimpleType => dropResult (Tp2cc.parseSimpleType r)
  | parseSubrangeType lo => dropResult (Tp2cc.parseSubrangeType r lo)
  | parseRecordType isPacked => dropResult (Tp2cc.parseRecordType r isPacked)
  | parseVariantPart => dropResult (Tp2cc.parseVariantPart r)
  | parseObjectType => dropResult (Tp2cc.parseObjectType r)
  | parseInterfaceType => dropResult (Tp2cc.parseInterfaceType r)
  | parseArrayType isPacked => dropResult (Tp2cc.parseArrayType r isPacked)
  | parseSetType => dropResult (Tp2cc.parseSetType r)
  | parseFileType => dropResult (Tp2cc.parseFileType r)
  | parseProceduralType => dropResult (Tp2cc.parseProceduralType r)
  | parseStatement => dropResult (Tp2cc.parseStatement r)
  | parseStatementBlockUntil stops => dropResult (Tp2cc.parseStatementBlockUntil r stops)
  | parseCompoundStatement => dropResult (Tp2cc.parseCompoundStatement r)
  | parseIf => dropResult (Tp2cc.parseIf r)
  | parseWhile => dropResult (Tp2cc.parseWhile r)
  | parseRepeat => dropResult (Tp2cc.parseRepeat r)
  | parseFor => dropResult (Tp2cc.parseFor r)
  | parseCase => dropResult (Tp2cc.parseCase r)
  | parseWith => dropResult (Tp2cc.parseWith r)
  | parseAsm => dropResult (Tp2cc.parseAsm r)
  | parseTry => dropResult (Tp2cc.parseTry r)
  | parseRaise => dropResult (Tp2cc.parseRaise r)
  | parseLabeledOrSimple => dropResult (Tp2cc.parseLabeledOrSimple r)
  | parseExpr => dropResult (Tp2cc.parseExpr r)
  | parseSubrangeBound => dropResult (Tp2cc.parseSubrangeBound r)
  | parseSimpleExpr => dropResult (Tp2cc.parseSimpleExpr r)
  | parseTerm => dropResult (Tp2cc.parseTerm r)
  | parseFactor => dropResult (Tp2cc.parseFactor r)
  | parsePrimary => dropResult (Tp2cc.parsePrimary r)
  | parsePostfix lhs => dropResult (Tp2cc.parsePostfix r lhs)
  | parseSetLiteral => dropResult (Tp2cc.parseSetLiteral r)

variable {r : Routines} {n : Nat}

theorem ParserRoutine.run_safe (h : r.Return n) (routine : ParserRoutine) :
    Safe n (routine.run r) := by
  have within {α : Type} {p : P α} (hp : Safe (n+1) p) : Safe n p :=
    hp.mono (fun _ => id) (Nat.le_succ n) fun _ => id
  cases routine with
  | parse => exact Runs.map (parse_safe h)
  | parseUnitInterface => exact Runs.map (parseUnitInterface_safe h)
  | parseUnitImplementation => exact Runs.map (parseUnitImplementation_safe h)
  | parseProgram => exact Runs.map (parseProgram_safe h)
  | parseUsesClause => exact Runs.map (parseUsesClause_safe h)
  | syncTo stops => exact Runs.map (syncTo_safe h stops)
  | consumeIdent ctx => exact Runs.map (consumeIdent_safe ctx)
  | consumeNameOrDirective ctx => exact Runs.map (consumeIdent_safe ctx)
  | parsePropertyAccessorPath ctx => exact Runs.map (parseNamePath_safe h ctx)
  | parseDeclBlock inInterface => exact Runs.map (within (parseDeclBlock_safe h inInterface))
  | parseConstSection => exact Runs.map (parseConstSection_starts h).safe
  | parseConstValue target => exact Runs.map (within (parseConstValue_safe h target))
  | parseTypeSection => exact Runs.map (parseTypeSection_starts h).safe
  | parseTypeDeclFromCurrentIdent ctx id =>
    exact Runs.map (parseTypeDeclFromCurrentIdent_safe h ctx id)
  | parseVarSection => exact Runs.map (parseVarSection_starts h).safe
  | parseLabelSection => exact Runs.map (parseLabelSection_starts h).safe
  | parseProcDecl pk inInterface isClassMethod inTypeMember =>
    exact Runs.map (parseProcDecl_safe h _ _ _ _)
  | parseOperatorDecl inInterface => exact Runs.map (parseOperatorDecl_safe h _)
  | parseProcModifier inTypeMember => exact Runs.map (parseProcModifier_eats _).forget
  | parseProcModifiers modifiers inTypeMember => exact Runs.map (parseProcModifiers_safe h _ _)
  | parseProcHeaderTail ctx inTypeMember => exact Runs.map (parseProcHeaderTail_safe h _ _)
  | parseParamList close => exact Runs.map (parseParamList_safe h _)
  | parseFormalParamList => exact Runs.map (parseParamList_safe h _)
  | parseType => exact Runs.map (within (parseType_safe h))
  | parseSimpleType => exact Runs.map (within (parseSimpleType_safe h))
  | parseSubrangeType lo => exact Runs.map (within (parseSubrangeType_safe h lo))
  | parseRecordType isPacked => exact Runs.map (parseRecordType_starts h _).safe
  | parseVariantPart => exact Runs.map (within (parseVariantPart_safe h))
  | parseObjectType => exact Runs.map (parseObjectType_starts h fun _ => .inl).safe
  | parseInterfaceType => exact Runs.map (parseInterfaceType_starts h).safe
  | parseArrayType isPacked => exact Runs.map (parseArrayType_starts h _).safe
  | parseSetType => exact Runs.map (parseSetType_starts h).safe
  | parseFileType => exact Runs.map (parseFileType_starts h).safe
  | parseProceduralType => exact Runs.map (parseProceduralType_safe h)
  | parseStatement => exact Runs.map (within (parseStatement_safe h))
  | parseStatementBlockUntil stops => exact Runs.map (parseStatementBlockUntil_safe h _)
  | parseCompoundStatement => exact Runs.map (parseCompoundStatement_starts h).safe
  | parseIf => exact Runs.map (parseIf_starts h).safe
  | parseWhile => exact Runs.map (parseWhile_starts h).safe
  | parseRepeat => exact Runs.map (parseRepeat_starts h).safe
  | parseFor => exact Runs.map (parseFor_starts h).safe
  | parseCase => exact Runs.map (parseCase_starts h).safe
  | parseWith => exact Runs.map (parseWith_starts h).safe
  | parseAsm => exact Runs.map (parseAsm_starts h).safe
  | parseTry => exact Runs.map (parseTry_starts h).safe
  | parseRaise => exact Runs.map (parseRaise_starts h).safe
  | parseLabeledOrSimple => exact Runs.map (within (parseLabeledOrSimple_safe h))
  | parseExpr => exact Runs.map (within (parseExpr_safe h))
  | parseSubrangeBound => exact Runs.map (within (parseSimpleExpr_safe h))
  | parseSimpleExpr => exact Runs.map (within (parseSimpleExpr_safe h))
  | parseTerm => exact Runs.map (within (parseTerm_safe h))
  | parseFactor => exact Runs.map (within (parseFactor_safe h))
  | parsePrimary => exact Runs.map (within (parsePrimary_safe h))
  | parsePostfix lhs => exact Runs.map (parsePostfix_safe h lhs)
  | parseSetLiteral => exact Runs.map (parseSetLiteral_starts h).safe

/-- With more levels of recursion and more rounds of each loop than tokens are left, every routine
returns from every state of the parser, and it gives no token back. -/
theorem parser_terminates (routine : ParserRoutine) (s : PState) (n : Nat)
    (hn : s.toks.length < n) :
    ∃ s', routine.run (routines n) s = some ((), s') ∧ s'.toks.length ≤ s.toks.length := by
  obtain ⟨u, s', h, hle, -⟩ := routine.run_safe (routines_return n) s trivial hn
  exact ⟨s', h, hle⟩

/-- `unit class case`, which is no unit. -/
theorem parser_terminates_malformed :
    ∃ s', ParserRoutine.parse.run (routines 4)
      { toks := [⟨⟨.kwUnit, "unit", 0, {}⟩, by decide⟩, ⟨⟨.kwClass, "class", 0, {}⟩, by decide⟩,
          ⟨⟨.kwCase, "case", 0, {}⟩, by decide⟩] } = some ((), s') ∧ s'.toks.length ≤ 3 :=
  parser_terminates .parse _ 4 (by decide)

end Tp2cc
