import Tp2cc.Lexer.IfExpr
import Tp2cc.Parser.Stream

/-! Compiler directives: the stack of conditionals, and what every other directive does where the
source is accepted. -/
set_option autoImplicit false

namespace Tp2cc

structure IfdefFrame where
  accepting : Bool
  anyTaken : Bool
  inElse : Bool

structure Lexer.Input where
  path : String
  contents : List Char

inductive Diagnostic where
  | error (msg : String)
  | warning (msg : String)

/-- What directives other than conditional ones act on, and what conditions ask for. -/
structure Settings where
  stack : List Lexer.Input
  defines : Symbols
  qCheck : Bool
  rCheck : Bool
  tTypedAddresses : Bool
  hLongStrings : Bool
  packenum : Nat
  defaultInterfaceMode : InterfaceMode
  interfaceMode : InterfaceMode

/-- The frames of the open conditionals stand with the innermost one first. -/
structure Lexer extends Settings where
  ifdefStack : List IfdefFrame
  diagnostics : List Diagnostic

/-- What the file system answers: the path of an include file, asked for by name in the source
at a path, and the contents of a file. -/
structure IncludeFiles where
  resolve : String → String → Option String
  load : String → Option (List Char)

def noIncludes : IncludeFiles := ⟨fun _ _ => none, fun _ => none⟩

def splitDirective (body : List Char) : String × List Char :=
  let isHead := fun c => c.isAlphanum || c = '_' || c = '+' || c = '-'
  let body := body.dropWhile isBlank
  (lower (body.takeWhile isHead), (body.dropWhile isHead).dropWhile isBlank)

def splitAssign : List Char → Option (List Char × List Char)
  | [] => none
  | ':' :: '=' :: rest => some ([], rest)
  | c :: rest => (splitAssign rest).map fun (before, after) => (c :: before, after)

def parseMacroDefinition (rest : List Char) : List Char × Option String :=
  let body := trim rest
  match splitAssign body with
  | none => (body, none)
  | some (name, text) => (trim name, some (String.ofList (trim text)))

def parsePackenumValue (rest : List Char) : Option Nat :=
  match lower (trim rest) with
  | "default" | "normal" => some 4
  | "1" => some 1
  | "2" => some 2
  | "4" => some 4
  | _ => none

def modeDefaultPackenum (rest : List Char) : Option Nat :=
  match lower (trim rest) with
  | "tp" | "tp7" | "delphi" | "macpas" => some 1
  | "fpc" | "objfpc" => some 4
  | _ => none

def skipMark : List Char → List Char
  | '\u00ef' :: '\u00bb' :: '\u00bf' :: rest => rest
  | contents => contents

def unquote (name : List Char) : List Char :=
  if 2 ≤ name.length ∧ name.head? = some '\'' ∧ name.getLast? = some '\'' then
    name.tail.dropLast
  else name

namespace Settings
variable (s : Settings)

def push (path : String) (contents : List Char) : Settings :=
  { s with stack := ⟨path, skipMark contents⟩ :: s.stack }

def currentPath : String := (s.stack.head?.map (·.path)).getD ""

def includeMacro (a : List Char) : Settings × List Diagnostic :=
  let included := fun contents : String =>
    (s.push (s.currentPath ++ ":\x7b$I " ++ String.ofList a ++ "\x7d") contents.toList, [])
  match lower a with
  | "%date%" => included "'1970-01-01'"
  | "%time%" => included "'00:00:00'"
  | _ => (s, [.error ("unsupported builtin include-macro \x7b$I " ++ String.ofList a ++ "\x7d")])

def doInclude (files : IncludeFiles) (arg : List Char) : Settings × List Diagnostic :=
  let a := trim arg
  if a = [] then (s, [.error "empty \x7b$include ...\x7d"])
  else if 2 ≤ a.length ∧ a.head? = some '%' ∧ a.getLast? = some '%' then s.includeMacro a
  else
    let name := String.ofList (unquote a)
    match files.resolve s.currentPath name with
    | none => (s, [.error ("cannot find include file: " ++ name)])
    | some path =>
      match files.load path with
      | none => (s, [.error ("cannot read include file: " ++ path)])
      | some contents => (s.push path contents, [])

def illegal (head : String) (rest : List Char) : Settings × List Diagnostic :=
  (s, [.error ("illegal \x7b$" ++ head ++ "\x7d value: " ++ String.ofList (trim rest))])

def define (rest : List Char) : Settings :=
  let (name, text) := parseMacroDefinition rest
  if lower name = "" then s else { s with defines := s.defines.insert (lower name) text }

/-- A directive that is no conditional, where the source is accepted. -/
def obey (files : IncludeFiles) (head : String) (rest : List Char) : Settings × List Diagnostic :=
  match head with
  | "define" => (s.define rest, [])
  | "undef" => ({ s with defines := s.defines.erase (lower (trim rest)) }, [])
  | "i" | "include" => s.doInclude files rest
  | "fatal" | "error" =>
    (s, [.error ("\x7b$" ++ head ++ "\x7d " ++ String.ofList (trim rest))])
  | "warning" | "message" | "note" | "hint" =>
    (s, [.warning ("\x7b$" ++ head ++ "\x7d " ++ String.ofList (trim rest))])
  | "q+" | "overflowchecks+" => ({ s with qCheck := true }, [])
  | "q-" | "overflowchecks-" => ({ s with qCheck := false }, [])
  | "r+" | "rangechecks+" => ({ s with rCheck := true }, [])
  | "r-" | "rangechecks-" => ({ s with rCheck := false }, [])
  | "h+" | "longstrings+" => ({ s with hLongStrings := true }, [])
  | "h-" | "longstrings-" => ({ s with hLongStrings := false }, [])
  | "t-" | "typedaddress-" => ({ s with tTypedAddresses := false }, [])
  | "t+" | "typedaddress+" =>
    (s, [.error "\x7b$T+\x7d typed address operator mode is not supported"])
  | "typedaddress" =>
    match lower (trim rest) with
    | "-" => ({ s with tTypedAddresses := false }, [])
    | "+" => (s, [.error "\x7b$TYPEDADDRESS+\x7d typed address operator mode is not supported"])
    | _ => s.illegal head rest
  | "longstrings" =>
    match lower (trim rest) with
    | "on" | "+" => ({ s with hLongStrings := true }, [])
    | "off" | "-" => ({ s with hLongStrings := false }, [])
    | _ => s.illegal head rest
  | "z1" => ({ s with packenum := 1 }, [])
  | "z2" => ({ s with packenum := 2 }, [])
  | "z4" => ({ s with packenum := 4 }, [])
  | "packenum" | "minenumsize" =>
    match parsePackenumValue rest with
    | some value => ({ s with packenum := value }, [])
    | none => s.illegal head rest
  | "interfaces" =>
    match lower (trim rest) with
    | "corba" => ({ s with interfaceMode := .corba }, [])
    | "com" => ({ s with interfaceMode := .com }, [])
    | "default" => ({ s with interfaceMode := s.defaultInterfaceMode }, [])
    | _ => s.illegal head rest
  | "mode" =>
    match modeDefaultPackenum rest with
    | some value => ({ s with packenum := value }, [])
    | none => (s, [])
  | _ => (s, [])

/-- Whether the named switch has the state named; `false` for every other text. -/
def switchIs (rest : List Char) : Bool :=
  match lower (trim rest) with
  | "q+" | "overflowchecks+" => s.qCheck
  | "q-" | "overflowchecks-" => !s.qCheck
  | "r+" | "rangechecks+" => s.rCheck
  | "r-" | "rangechecks-" => !s.rCheck
  | "h+" | "longstrings+" => s.hLongStrings
  | "h-" | "longstrings-" => !s.hLongStrings
  | "t+" => s.tTypedAddresses
  | "t-" => !s.tTypedAddresses
  | _ => false

end Settings

namespace Lexer
variable (l : Lexer)

def accepting : Bool := l.ifdefStack.all (·.accepting)

def report (d : Diagnostic) : Lexer := { l with diagnostics := l.diagnostics ++ [d] }

def openFrame (accepting : Bool) : Lexer :=
  { l with ifdefStack := ⟨accepting, accepting, false⟩ :: l.ifdefStack }

/-- Evaluates a condition; one that has no value is reported and does not hold. -/
def evalCondition (head : String) (rest : List Char) : Bool × Lexer :=
  match IfExpr.eval l.defines rest with
  | .ok value => (value, l)
  | .error error => (false, l.report (.error ("cannot evaluate \x7b$" ++ head ++ "\x7d: " ++ error)))

def handleIf (rest : List Char) : Lexer :=
  if l.accepting then
    let (cond, l') := l.evalCondition "if" rest
    l'.openFrame cond
  else l.openFrame false

def handleElseif (rest : List Char) : Lexer :=
  match l.ifdefStack with
  | [] => l.report (.error "\x7b$elseif\x7d without matching \x7b$if\x7d")
  | f :: outer =>
    if f.inElse then l.report (.error "\x7b$elseif\x7d after \x7b$else\x7d")
    else
      let parentOk := outer.all (·.accepting)
      let (cond, l') :=
        if parentOk && !f.anyTaken then l.evalCondition "elseif" rest else (false, l)
      let accepting := parentOk && !f.anyTaken && cond
      { l' with ifdefStack := { f with accepting, anyTaken := f.anyTaken || accepting } :: outer }

def handleElse : Lexer :=
  match l.ifdefStack with
  | [] => l.report (.error "\x7b$else\x7d without matching \x7b$ifdef\x7d")
  | f :: outer =>
    if f.inElse then l.report (.error "duplicate \x7b$else\x7d")
    else
      let accepting := outer.all (·.accepting) && !f.anyTaken
      { l with ifdefStack := ⟨accepting, f.anyTaken || accepting, true⟩ :: outer }

def handleEndif : Lexer :=
  match l.ifdefStack with
  | [] => l.report (.error "\x7b$endif\x7d without matching \x7b$ifdef\x7d")
  | _ :: outer => { l with ifdefStack := outer }

def handleDirective (files : IncludeFiles) (body : List Char) : Lexer :=
  let (head, rest) := splitDirective body
  match head with
  | "" => l
  | "ifdef" => l.openFrame (l.accepting && decide (lower (trim rest) ∈ l.defines))
  | "ifndef" => l.openFrame (l.accepting && !decide (lower (trim rest) ∈ l.defines))
  | "if" => l.handleIf rest
  | "ifopt" => l.openFrame (l.accepting && l.switchIs rest)
  | "elseif" => l.handleElseif rest
  | "else" => l.handleElse
  | "endif" | "ifend" => l.handleEndif
  | _ =>
    if l.accepting then
      let (s, ds) := l.obey files head rest
      { l with toSettings := s, diagnostics := l.diagnostics ++ ds }
    else l

end Lexer
end Tp2cc
