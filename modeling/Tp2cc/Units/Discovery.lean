import Mathlib.Data.List.AList
import Tp2cc.Units.FailurePropagation

/-! How the units of a program are found and parsed: interfaces depth first, each implementation
once the interfaces it can be reached from are there. -/
set_option autoImplicit false

namespace Tp2cc.Discovery

inductive Heading
  | unit
  | program
  | body
  | other
  deriving DecidableEq

/-- What the parser makes of a source file; the lists are as the file has them. -/
structure Text where
  heading : Heading
  node : UnitNode

inductive Phase
  | parsingInterface
  | interfaceReady
  | complete
  | failed
  deriving DecidableEq

structure Session where
  name : String
  hadError : Bool
  phase : Phase

inductive Fault
  | cycle
  | unresolved
  | text
  deriving DecidableEq

structure Report (α : Type) where
  path : α
  fault : Fault
  message : String

/-- What the parse tells the type registry, in this order. The bodies of a file are bound with its
last declarations. -/
inductive Call (α : Type)
  | beginUnit (path : α) (name : String)
  | imports (path : α) (name : String) (units : List String) (inInterface : Bool)
  | declarations (path : α) (inInterface : Bool)

def Call.path {α : Type} : Call α → α
  | .beginUnit path _ => path
  | .imports path _ _ _ => path
  | .declarations path _ => path

/-- The files around an entry. Paths stand for their absolute normal forms. -/
structure Project (α : Type) where
  entry : α
  load : α → Option Text
  /-- `find_unit_path`, of a name in lower case. -/
  findUnitPath : String → Option α
  hasRuntimeUnitModel : String → Bool
  stem : α → String
  /-- Where a path is shown in a message. -/
  display : α → String
  /-- The errors of the lexer, the parser and the registry in the interface or the rest of a file,
  which may depend on what the registry has been told before. -/
  textErrors : α → Bool → List (Call α) → List String

structure State (α : Type) where
  sessionsByPath : AList fun _ : α => Session
  sessionsByName : AList fun _ : String => α
  units : AList fun _ : String => ParsedUnit
  reports : List (Report α)
  calls : List (Call α)

section
variable {α : Type} [DecidableEq α]

def State.empty : State α := ⟨∅, ∅, ∅, [], []⟩

namespace State
variable (s : State α)

def session (path : α) : Option Session := s.sessionsByPath.lookup path

def setSession (path : α) (session : Session) : State α :=
  { s with sessionsByPath := s.sessionsByPath.insert path session }

def update (path : α) (f : Session → Session) : State α :=
  match s.session path with
  | none => s
  | some session => s.setSession path (f session)

def fail (path : α) : State α := s.update path fun session => { session with hadError := true }

def report (path : α) (fault : Fault) (message : String) : State α :=
  { s with reports := s.reports ++ [⟨path, fault, message⟩] }

def call (c : Call α) : State α := { s with calls := s.calls ++ [c] }

/-- A second unit of a name only gets a warning. -/
def beginCompilationUnit (path : α) (name : String) : State α :=
  let name := toLower name
  let s := s.update path fun session => { session with name := name }
  { s with
    sessionsByName := match s.sessionsByName.lookup name with
      | none => s.sessionsByName.insert name path
      | some _ => s.sessionsByName
    units := if name ∈ s.units then s.units else s.units.insert name ⟨none, false⟩
    calls := s.calls ++ [.beginUnit path name] }

end State

section
variable (p : Project α)

def textErrors (path : α) (inInterface : Bool) (s : State α) : State α :=
  { s with reports := s.reports ++
      (p.textErrors path inInterface s.calls).map fun message => ⟨path, .text, message⟩ }

def declarations (path : α) (inInterface : Bool) (s : State α) : State α :=
  (textErrors p path inInterface s).call (.declarations path inInterface)

def importUnit (parse : α → State α → Option (Nat × State α)) (path : α) (imported : String)
    (s : State α) : Option (State α) :=
  let unit := toLower imported
  let name := ((s.session path).map (·.name)).getD ""
  if p.hasRuntimeUnitModel unit then some s
  else
    match s.sessionsByName.lookup unit with
    | some existing =>
      match s.session existing with
      | none => some s
      | some session =>
        if session.phase = .parsingInterface then
          some ((s.report path .cycle
            ("interface uses cycle involving `" ++ name ++ "` and `" ++ unit ++ "`")).fail path)
        else if session.hadError = true ∨ session.phase = .failed then some (s.fail path)
        else some s
    | none =>
      match p.findUnitPath unit with
      | none =>
        some ((s.report path .unresolved
          ("unresolved unit `" ++ unit ++ "` used by `" ++ name ++ "`")).fail path)
      | some dependency =>
        (parse dependency s).map fun (errors, s) => if errors = 0 then s else s.fail path

def importEach (parse : α → State α → Option (Nat × State α)) (path : α) :
    List String → State α → Option (State α)
  | [], s => some s
  | imported :: rest, s => (importUnit p parse path imported s).bind (importEach parse path rest)

def importUnits (parse : α → State α → Option (Nat × State α)) (path : α) (imports : List String)
    (inInterface : Bool) (s : State α) : Option (State α) :=
  (importEach p parse path imports s).map fun s =>
    s.call (.imports path (((s.session path).map (·.name)).getD "") imports inInterface)

def parseText (parse : α → State α → Option (Nat × State α)) (path : α) (text : Text)
    (s : State α) : Option (State α) :=
  match text.heading with
  | .unit =>
    (importUnits p parse path text.node.interfaceUses true
      (s.beginCompilationUnit path text.node.name)).map (declarations p path true)
  | .program =>
    (importUnits p parse path text.node.implUses false
      (s.beginCompilationUnit path text.node.name)).map (declarations p path false)
  | .body => some (textErrors p path false s)
  | .other =>
    some (s.report path .text "expected 'program' or 'unit' at top of compilation unit")

def Text.parsed (text : Text) : Option UnitNode :=
  match text.heading with
  | .unit => some ⟨text.node.name, text.node.interfaceUses, text.node.interfaceDecls, [], [], none,
      none, false⟩
  | .program => some ⟨text.node.name, [], [], text.node.implUses, text.node.implDecls,
      text.node.initBody, none, true⟩
  | .body => some ⟨"", [], [], [], [], text.node.initBody, none, true⟩
  | .other => none

def Text.phase (text : Text) : Phase :=
  match text.heading with
  | .unit => .interfaceReady
  | .program => .complete
  | .body => .complete
  | .other => .failed

def nodeName (path : α) (node : Option UnitNode) : String :=
  let name := (node.map fun node => toLower node.name).getD ""
  if name = "" then "__prog_" ++ p.stem path else name

def finishParse (path : α) (text : Text) (errors : Nat) (s : State α) : State α :=
  let hadError := ((s.session path).map (·.hadError)).getD false || decide (errors ≠ 0)
  let name := nodeName p path text.parsed
  let ok := !hadError && text.parsed.isSome && decide (text.phase = .complete)
  let s := s.setSession path ⟨name, hadError, text.phase⟩
  { s with units := s.units.insert name ⟨text.parsed, ok⟩ }

/-- `none` only when the fuel runs out. -/
def parseRecursive : Nat → α → State α → Option (Nat × State α)
  | 0, _, _ => none
  | n+1, path, s =>
    match s.session path with
    | some session =>
      if session.phase = .parsingInterface then
        some (1, s.report path .cycle ("interface uses cycle at `" ++ p.display path ++ "`"))
      else if session.hadError = true ∨ session.phase = .failed then some (1, s)
      else some (0, s)
    | none =>
      match p.load path with
      | none => some (1, s)
      | some text =>
        (parseText p (parseRecursive n) path text
          (s.setSession path ⟨"", false, .parsingInterface⟩)).map fun s' =>
            let errors := s'.reports.length-s.reports.length
            (errors, finishParse p path text errors s')

def finishImplementation (path : α) (text : Text) (errors : Nat) (s : State α) : State α :=
  match s.session path with
  | none => s
  | some session =>
    let hadError := session.hadError || decide (errors ≠ 0)
    let s := s.setSession path { session with hadError := hadError, phase := .complete }
    if session.name ∈ s.units then
      { s with units := s.units.insert session.name ⟨some text.node, !hadError⟩ }
    else s

def parseUnitImplementation (n : Nat) (path : α) (s : State α) : Option (State α) :=
  match p.load path with
  | none => some s
  | some text =>
    (importUnits p (parseRecursive p n) path text.node.implUses false s).map fun s' =>
      let s' := declarations p path false s'
      finishImplementation path text (s'.reports.length-s.reports.length) s'

/-- The next unit whose implementation is to be parsed, in whatever order the table is met. -/
def pending (σ : HashOrder Nat) (i : Nat) (s : State α) : Option α :=
  (σ.walk i s.sessionsByPath.keys).find? fun path =>
    decide ((s.session path).map (·.phase) = some .interfaceReady)

/-- `none` only when the fuel runs out. -/
def parsePendingImplementations (σ : HashOrder Nat) (fuel : Nat) : Nat → State α → Option (State α)
  | 0, _ => none
  | n+1, s =>
    match pending σ n s with
    | none => some s
    | some path =>
      (parseUnitImplementation p fuel path s).bind (parsePendingImplementations σ fuel n)

def State.graph (s : State α) : UnitTable where
  units := s.units.entries.map fun e => (e.1, e.2)
  nodup := by
    have h := s.units.nodupKeys
    rw [List.map_map]
    exact h

/-- The number of errors, the sessions and the units. `none` only when the fuel runs out. -/
def discoverFromEntry (σ : HashOrder Nat) (fuel : Nat) : Option (Nat × State α × UnitGraph) := do
  let (errors, s) ← parseRecursive p fuel p.entry .empty
  let s' ← parsePendingImplementations p σ fuel fuel s
  let g ← s'.graph.propagateFailures σ
  return (errors+(s'.reports.length-s.reports.length), s', g)

end
end
end Tp2cc.Discovery
