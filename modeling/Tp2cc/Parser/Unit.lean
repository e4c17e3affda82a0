import Tp2cc.Parser.Decl

set_option autoImplicit false

namespace Tp2cc
open Machine Parsing

def routines : Nat → Routines
  | 0 => {
      fuel := 1
      parseExpr := fun _ => none
      parseFactor := fun _ => none
      parseConstValue := fun _ _ => none
      parseStatement := fun _ => none
      parseType := fun _ => none
      parseVariantPart := fun _ => none
      parseDeclBlock := fun _ _ => none }
  | n+1 =>
    let r := routines n
    { fuel := n+2
      parseExpr := parseExpr r
      parseFactor := parseFactor r
      parseConstValue := parseConstValue r
      parseStatement := parseStatement r
      parseType := parseType r
      parseVariantPart := parseVariantPart r
      parseDeclBlock := parseDeclBlock r }

section
variable (r : Routines)

def syncTo (stops : List Tok) : P Unit :=
  loop (fun (_ : Unit) => do
    if ← atEndOr stops then return .done ()
    else do
      advance
      return .again ()) r.fuel ()

def skipProgramParameters : P Unit := do
  if ← accept .lParen then do
    loop (fun (_ : Unit) => do
      if ← atEndOr [.rParen] then return .done ()
      else do
        let _ ← consumeIdent "program parameter"
        if ← accept .comma then return .again ()
        else return .done ()) r.fuel ()
    expect .rParen "program parameters"
  else return ()

/-- The file name in `uses foo in 'foo.pas'` is dropped. -/
def skipInFile : P Unit := do
  if ← accept .kwIn then do
    let _ ← acceptStringLit
    return ()
  else return ()

def parseUsesClause : P (List String) :=
  loop (fun out => do
    if ← atEndOr [] then return .done out
    else if ← check .ident then do
      let t ← cur
      advance
      skipInFile
      let out := out ++ [t.text]
      if ← accept .comma then return .again out
      else return .done out
    else do
      expect .ident "uses clause"
      return .done out) r.fuel []

def parseOptionalUses (ctx : String) : P (List String) := do
  if ← check .kwUses then do
    advance
    let uses ← parseUsesClause r
    expect .semi ctx
    return uses
  else return []

def parseMainBody : P (Option Stmt) := do
  if ← check .kwBegin then return some (← parseCompoundStatement r)
  else return none

def parseProgram : P UnitNode := do
  expect .kwProgram "program header"
  let name ← consumeNameOrDirective "program name"
  skipProgramParameters r
  expect .semi "program header"
  let implUses ← parseOptionalUses r "uses clause"
  let implDecls ← parseDeclBlock r false
  let initBody ← parseMainBody r
  expect .dot "program tail"
  return ⟨name, [], [], implUses, implDecls, initBody, none, true⟩

def partialUnit : P (Option UnitNode) := fun s => some (s.partialUnit, s)

def setPartialUnit (u : UnitNode) : P Unit := fun s => some ((), { s with partialUnit := some u })

/-- The interface is read once, and kept for the implementation. -/
def parseUnitInterface : P UnitNode := do
  match ← partialUnit with
  | some u => return u
  | none => do
    expect .kwUnit "unit header"
    let name ← consumeNameOrDirective "unit name"
    expect .semi "unit header"
    expect .kwInterface "unit interface"
    let interfaceUses ← parseOptionalUses r "interface uses"
    let interfaceDecls ← parseDeclBlock r true
    expect .kwImplementation "unit implementation"
    let u : UnitNode := ⟨name, interfaceUses, interfaceDecls, [], [], none, none, false⟩
    setPartialUnit u
    return u

def parseInitialization : P (Option Stmt) := do
  if ← accept .kwInitialization then
    return some (← parseStatementBlockUntil r [.kwFinalization, .kwEnd])
  else return none

def parseFinalization : P (Option Stmt) := do
  if ← accept .kwFinalization then return some (← parseStatementBlockUntil r [.kwEnd])
  else return none

def parseUnitTail : P (Option Stmt × Option Stmt) := do
  if ← check .kwBegin then do
    let initBody ← parseCompoundStatement r
    expect .dot "unit tail"
    return (some initBody, none)
  else if ← check .kwEnd then do
    advance
    expect .dot "unit tail"
    return (none, none)
  else if ← checkAny [.kwInitialization, .kwFinalization] then do
    let initBody ← parseInitialization r
    let finalBody ← parseFinalization r
    expect .kwEnd "unit tail"
    expect .dot "unit tail"
    return (initBody, finalBody)
  else do
    expect .kwEnd "unit tail"
    return (none, none)

def parseUnitImplementation : P (Option UnitNode) := do
  match ← partialUnit with
  | none => return none
  | some u => do
    let implUses ← parseOptionalUses r "implementation uses"
    let implDecls ← parseDeclBlock r false
    let tail ← parseUnitTail r
    let u := { u with
      implUses := implUses, implDecls := implDecls, initBody := tail.1, finalBody := tail.2 }
    setPartialUnit u
    return some u

/-- A body without a header is a program, as in an include file. -/
def parseHeaderless : P UnitNode := do
  let initBody ← parseCompoundStatement r
  if ← check .dot then do
    advance
    return ⟨"", [], [], [], [], some initBody, none, true⟩
  else return ⟨"", [], [], [], [], some initBody, none, true⟩

def parse : P (Option UnitNode) := do
  match ← curKind with
  | .kwUnit => do
    let _ ← parseUnitInterface r
    parseUnitImplementation r
  | .kwProgram => return some (← parseProgram r)
  | .kwBegin => return some (← parseHeaderless r)
  | _ => do
    reportError "expected 'program' or 'unit' at top of compilation unit"
    return none

end

section
variable {r : Routines} {n : Nat} {K : Tok → Prop}

theorem routines_step (h : (routines n).Return n) : (routines (n+1)).Return (n+1) where
  fuel := Nat.lt_succ_self _
  parseExpr := parseExpr_safe h
  parseFactor := parseFactor_safe h
  parseConstValue := parseConstValue_safe h
  parseStatement := parseStatement_safe h
  parseType := parseType_safe h
  parseVariantPart := parseVariantPart_safe h
  parseDeclBlock := parseDeclBlock_safe h

theorem safe_zero {α : Type} (p : P α) : Safe 0 p :=
  fun _ _ h => absurd h (Nat.not_lt_zero _)

theorem routines_return (n : Nat) : (routines n).Return n := by
  induction n with
  | zero =>
    exact ⟨Nat.zero_lt_one, safe_zero _, safe_zero _, fun _ => safe_zero _, safe_zero _,
      safe_zero _, safe_zero _, fun _ => safe_zero _⟩
  | succ n ih => exact routines_step ih

theorem syncTo_safe (h : r.Return n) (stops : List Tok) : Safe n (syncTo r stops) := by
  refine Runs.loop h.fuel_le (fun _ => ?_) ()
  exact Runs.test (atEndOr_tests _) Runs.done (Runs.advanceSafe (by simp) Runs.pureSafe)

theorem skipProgramParameters_safe (h : r.Return n) : Safe n (skipProgramParameters r) := by
  refine Runs.acceptSafe (by decide) (Runs.bind ?_ fun _ => expect_safe _ _) Runs.pureSafe
  refine Runs.loop h.fuel_le (fun _ => Runs.test (atEndOr_tests _) Runs.done ?_) ()
  exact Runs.bind (consumeIdent_safe _) fun _ => Runs.acceptSafe (by decide) Runs.pureSafe Runs.done

theorem skipInFile_safe : Safe n skipInFile :=
  Runs.acceptSafe (by decide) (Runs.bind acceptStringLit_safe fun _ => Runs.pureSafe) Runs.pureSafe

theorem parseUsesClause_safe (h : r.Return n) : Safe n (parseUsesClause r) := by
  refine Runs.loop h.fuel_le (fun out => Runs.test (atEndOr_tests _) Runs.done ?_) []
  refine Runs.test (check_tests _) (Runs.look cur_looks fun t => ?_) (Runs.expect Runs.done)
  refine Runs.bind advance_safe fun _ => Runs.bind skipInFile_safe fun _ => ?_
  exact Runs.acceptSafe (by decide) Runs.pureSafe Runs.done

theorem parseOptionalUses_safe (h : r.Return n) (ctx : String) :
    Safe n (parseOptionalUses r ctx) := by
  refine Runs.test (check_tests _) (Runs.bind advance_safe fun _ => ?_) Runs.pureSafe
  exact Runs.bind (parseUsesClause_safe h) fun uses => Runs.closed

theorem parseCompoundStatement_safe (h : r.Return n) :
    Runs (fun k => True ∧ k = .kwBegin) n (fun _ => False) (parseCompoundStatement r) :=
  (parseCompoundStatement_starts h).safe.at

theorem parseMainBody_safe (h : r.Return n) : Safe n (parseMainBody r) := by
  refine Runs.test (check_tests _) ?_ Runs.pureSafe
  exact Runs.bind (parseCompoundStatement_safe h) fun body => Runs.pureSafe

theorem parseDeclBlock_within (h : r.Return n) (inInterface : Bool) :
    Safe n (parseDeclBlock r inInterface) :=
  (parseDeclBlock_safe h inInterface).mono (fun _ => id) (Nat.le_succ n) fun _ => id

theorem parseProgram_safe (h : r.Return n) : Safe n (parseProgram r) := by
  refine Runs.expect (Runs.bind (consumeIdent_safe _) fun name => ?_)
  refine Runs.bind (skipProgramParameters_safe h) fun _ => Runs.expect ?_
  refine Runs.bind (parseOptionalUses_safe h _) fun implUses => ?_
  refine Runs.bind (parseDeclBlock_within h _) fun implDecls => ?_
  exact Runs.bind (parseMainBody_safe h) fun initBody => Runs.closed

theorem parseUnitInterface_safe (h : r.Return n) : Safe n (parseUnitInterface r) := by
  refine Runs.look (fun s => ⟨_, s, rfl, rfl, rfl⟩) fun u => ?_
  cases u with
  | some u => exact Runs.pureSafe
  | none =>
    refine Runs.expect (Runs.bind (consumeIdent_safe _) fun name => Runs.expect (Runs.expect ?_))
    refine Runs.bind (parseOptionalUses_safe h _) fun interfaceUses => ?_
    refine Runs.bind (parseDeclBlock_within h _) fun interfaceDecls => Runs.expect ?_
    exact Runs.look (fun s => ⟨_, _, rfl, rfl, rfl⟩) fun _ => Runs.pureSafe

theorem parseUnitTail_safe (h : r.Return n) : Safe n (parseUnitTail r) := by
  have section_safe (stops : List Tok) :
      Safe n (do return some (← parseStatementBlockUntil r stops)) :=
    Runs.bind (parseStatementBlockUntil_safe h _) fun _ => Runs.pureSafe
  refine Runs.test (check_tests _) ?_ (Runs.test (check_tests _) ?_ ?_)
  · exact Runs.bind (parseCompoundStatement_safe h) fun body => Runs.closed
  · exact Runs.bind advance_safe fun _ => Runs.closed
  refine Runs.test (checkAny_tests _) ?_ Runs.closed
  refine Runs.bind (Runs.acceptSafe (by decide) (section_safe _) Runs.pureSafe) fun initBody => ?_
  refine Runs.bind (Runs.acceptSafe (by decide) (section_safe _) Runs.pureSafe) fun finalBody => ?_
  exact Runs.expect Runs.closed

theorem parseUnitImplementation_safe (h : r.Return n) : Safe n (parseUnitImplementation r) := by
  refine Runs.look (fun s => ⟨_, s, rfl, rfl, rfl⟩) fun u => ?_
  cases u with
  | none => exact Runs.pureSafe
  | some u =>
    refine Runs.bind (parseOptionalUses_safe h _) fun implUses => ?_
    refine Runs.bind (parseDeclBlock_within h _) fun implDecls => ?_
    refine Runs.bind (parseUnitTail_safe h) fun tail => ?_
    exact Runs.look (fun s => ⟨_, _, rfl, rfl, rfl⟩) fun _ => Runs.pureSafe

theorem parseHeaderless_starts (h : r.Return n) :
    Starts (· = .kwBegin) n (parseHeaderless r) := by
  refine Starts.bind (parseCompoundStatement_starts h) fun body => ?_
  refine Runs.test (check_tests _) ?_ Runs.pureSafe
  exact Runs.bind advance_safe fun _ => Runs.pureSafe

theorem parse_safe (h : r.Return n) : Safe n (parse r) := by
  refine Runs.kinds fun k _ => ?_
  split
  · refine Runs.bind (parseUnitInterface_safe h).at fun _ => ?_
    exact parseUnitImplementation_safe h
  · exact Runs.bind (parseProgram_safe h).at fun u => Runs.pureSafe
  · refine Runs.bind ?_ fun u => Runs.pureSafe
    exact (parseHeaderless_starts h).safe.at
  · exact Runs.look (reportError_looks _) fun _ => Runs.pureSafe

end
end Tp2cc
