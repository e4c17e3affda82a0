import Tp2cc.Ast
import Tp2cc.Parsing.Consuming

/-! The parser's view of the token stream: the current token, one token of lookahead, and the
mode switches that the lexer holds after the last token it was asked for. -/
set_option autoImplicit false

namespace Tp2cc
open Machine Parsing

inductive Tok where
  | eof | error
  | ident | intLit | realLit | stringLit
  | plus | minus | star | slash | eq | lt | gt | ltEq | gtEq | notEq | symDiff | starStar
  | assign | caret | lBrack | rBrack | dot | dotDot | comma | lParen | rParen | colon | semi
  | atSign | atAt
  | kwAbsolute | kwAbstract | kwAnd | kwArray | kwAs | kwAsm | kwAssembler
  | kwBegin | kwBreak
  | kwCase | kwCdecl | kwClass | kwConst | kwConstructor | kwContinue
  | kwDefault | kwDestructor | kwDispose | kwDiv | kwDo | kwDownto
  | kwElse | kwEnd | kwExcept | kwExit | kwExport | kwExports | kwExternal
  | kwFail | kwFalse | kwFar | kwFile | kwFinalization | kwFinally | kwFor | kwForward | kwFunction
  | kwGoto
  | kwIf | kwImplementation | kwIn | kwIndex | kwInherited | kwInitialization | kwInline
  | kwInterface | kwInterrupt | kwIs
  | kwLabel | kwLibrary
  | kwMessage | kwMod
  | kwName | kwNear | kwNew | kwNil | kwNot
  | kwObject | kwOf | kwOn | kwOperator | kwOr | kwOtherwise | kwOverride
  | kwPacked | kwPopstack | kwPascal | kwPrivate | kwProcedure | kwProgram | kwProperty
  | kwProtected | kwPublic | kwPublished
  | kwRaise | kwRead | kwRecord | kwRegister | kwRepeat | kwResident | kwResourcestring | kwResult
  | kwSafecall | kwSelf | kwSet | kwShl | kwShortstring | kwShr | kwStatic | kwStdcall | kwStored
  | kwString | kwSystem
  | kwThen | kwThreadvar | kwTo | kwTrue | kwTry | kwType
  | kwUnit | kwUntil | kwUses
  | kwVar | kwVirtual
  | kwWhile | kwWith | kwWrite
  | kwXor
  | kwAlias | kwCvar
  deriving DecidableEq, Repr

inductive InterfaceMode where
  | com | corba
  deriving DecidableEq, Repr

structure Modes where
  longStrings : Bool := false
  packenum : Nat := 4
  interfaceMode : InterfaceMode := .com
  overflowCheck : Bool := false
  rangeCheck : Bool := false
  deriving DecidableEq, Repr

structure Token where
  kind : Tok
  text : String := ""
  intValue : Nat := 0
  modes : Modes := {}
  deriving DecidableEq, Repr

abbrev SourceToken : Type := {t : Token // t.kind ≠ .eof}

structure PState where
  toks : List SourceToken
  eofModes : Modes := {}
  havePeek : Bool := false
  nextTypeSectionId : Nat := 1
  partialUnit : Option UnitNode := none
  errors : List String := []

namespace PState
variable (s : PState)

def eofToken : Token := { kind := .eof, modes := s.eofModes }

/-- Past the last token the lexer answers `eof` again and again. -/
def cur : Token :=
  match s.toks with
  | [] => s.eofToken
  | t :: _ => t.1

def lookahead : Token :=
  match s.toks with
  | _ :: t :: _ => t.1
  | _ => s.eofToken

/-- The modes of the lexer, which is one token ahead once the parser has peeked. -/
def modes : Modes := if s.havePeek then s.lookahead.modes else s.cur.modes

end PState

instance : Input PState Tok where
  left s := s.toks.length
  kind s := s.cur.kind

abbrev P : Type → Type := Parser PState

section
variable {α β : Type}

def cur : P Token := fun s => some (s.cur, s)
def curKind : P Tok := fun s => some (s.cur.kind, s)

def peekKind : P Tok := fun s => some (s.lookahead.kind, { s with havePeek := true })

def advance : P Unit := fun s => some ((), { s with toks := s.toks.tail, havePeek := false })

def reportError (msg : String) : P Unit :=
  fun s => some ((), { s with errors := s.errors ++ [msg] })

def reportIf (c : Bool) (msg : String) : P Unit :=
  if c then reportError msg else pure ()

def longStringsActive : P Bool := fun s => some (s.modes.longStrings, s)
def packenumActive : P Nat := fun s => some (s.modes.packenum, s)
def interfaceModeActive : P InterfaceMode := fun s => some (s.modes.interfaceMode, s)
def overflowCheckActive : P Bool := fun s => some (s.modes.overflowCheck, s)
def rangeCheckActive : P Bool := fun s => some (s.modes.rangeCheck, s)

def check (t : Tok) : P Bool := fun s => some (decide (s.cur.kind = t), s)
def checkAny (ts : List Tok) : P Bool := fun s => some (decide (s.cur.kind ∈ ts), s)

def checkPeek (t : Tok) (us : List Tok) : P Bool := fun s =>
  if s.cur.kind = t then some (decide (s.lookahead.kind ∈ us), { s with havePeek := true })
  else some (false, s)

def atEndOr (ts : List Tok) : P Bool :=
  fun s => some (decide (s.cur.kind = .eof ∨ s.cur.kind ∈ ts), s)

def isDirective (name : String) : P Bool :=
  fun s => some (decide (s.cur.kind = .ident ∧ s.cur.text = name), s)

def isAnyDirective (names : List String) : P Bool :=
  fun s => some (decide (s.cur.kind = .ident ∧ s.cur.text ∈ names), s)

def isDirectivePeek (name : String) (u : Tok) : P Bool := fun s =>
  if s.cur.kind = .ident ∧ s.cur.text = name then
    some (decide (s.lookahead.kind = u), { s with havePeek := true })
  else some (false, s)

def accept (t : Tok) : P Bool := do
  if ← check t then do
    advance
    return true
  else return false

def Tok.expected : Tok → String
  | .semi => "';'"
  | .dot => "'.'"
  | .colon => "':'"
  | .comma => "','"
  | .eq => "'='"
  | .assign => "':='"
  | .lParen => "'('"
  | .rParen => "')'"
  | .lBrack => "'['"
  | .rBrack => "']'"
  | .kwBegin => "'begin'"
  | .kwEnd => "'end'"
  | .kwDo => "'do'"
  | .kwThen => "'then'"
  | .kwOf => "'of'"
  | .kwTo => "'to'"
  | .kwUntil => "'until'"
  | .ident => "identifier"
  | _ => "token"

def expect (t : Tok) (ctx : String) : P Unit := do
  if ← check t then advance
  else do
    let c ← cur
    reportError ("expected " ++ t.expected ++ " (in " ++ ctx ++ ")" ++
      if c.text = "" then "" else ", got '" ++ c.text ++ "'")

end

section
variable {K : Tok → Prop} {n : Nat} {α β : Type} {eaten : β → Prop}

theorem left_eq (s : PState) : left s = s.toks.length := rfl

theorem kind_eq (s : PState) : kind s = s.cur.kind := rfl

theorem toks_pos {s : PState} (h : s.cur.kind ≠ .eof) : 0 < s.toks.length := by
  unfold PState.cur at h
  split at h
  · exact absurd rfl h
  · simp_all

theorem cur_looks : Looks cur := fun s => ⟨_, s, rfl, rfl, rfl⟩
theorem peekKind_looks : Looks peekKind := fun _ => ⟨_, _, rfl, rfl, rfl⟩
theorem reportError_looks (msg : String) : Looks (reportError msg) := fun _ => ⟨_, _, rfl, rfl, rfl⟩
theorem reportIf_looks (c : Bool) (msg : String) : Looks (reportIf c msg) := by
  unfold reportIf
  split
  · exact reportError_looks msg
  · exact fun s => ⟨_, s, rfl, rfl, rfl⟩

theorem longStringsActive_looks : Looks longStringsActive := fun s => ⟨_, s, rfl, rfl, rfl⟩
theorem packenumActive_looks : Looks packenumActive := fun s => ⟨_, s, rfl, rfl, rfl⟩
theorem interfaceModeActive_looks : Looks interfaceModeActive := fun s => ⟨_, s, rfl, rfl, rfl⟩
theorem overflowCheckActive_looks : Looks overflowCheckActive := fun s => ⟨_, s, rfl, rfl, rfl⟩
theorem rangeCheckActive_looks : Looks rangeCheckActive := fun s => ⟨_, s, rfl, rfl, rfl⟩

theorem check_tests (t : Tok) : Tests (· = t) (· ≠ t) (check t) := by
  intro s
  refine ⟨_, s, rfl, rfl, rfl, ?_⟩
  by_cases h : s.cur.kind = t <;> simp [kind_eq, h]

theorem checkAny_tests (ts : List Tok) : Tests (· ∈ ts) (· ∉ ts) (checkAny ts) := by
  intro s
  refine ⟨_, s, rfl, rfl, rfl, ?_⟩
  by_cases h : s.cur.kind ∈ ts <;> simp [kind_eq, h]

theorem checkPeek_tests (t : Tok) (us : List Tok) :
    Tests (· = t) (fun _ => True) (checkPeek t us) := by
  intro s
  unfold checkPeek
  split
  · refine ⟨_, _, rfl, rfl, rfl, ?_⟩
    split <;> simp_all [kind_eq]
  · exact ⟨_, s, rfl, rfl, rfl, by simp⟩

theorem atEndOr_tests (ts : List Tok) : Tests (fun _ => True) (· ≠ .eof) (atEndOr ts) := by
  intro s
  refine ⟨_, s, rfl, rfl, rfl, ?_⟩
  by_cases h : s.cur.kind = .eof <;> simp [kind_eq, h]

theorem isDirective_tests (name : String) :
    Tests (· = .ident) (fun _ => True) (isDirective name) := by
  intro s
  refine ⟨_, s, rfl, rfl, rfl, ?_⟩
  by_cases h : s.cur.kind = .ident <;> simp [kind_eq, h]

theorem isAnyDirective_tests (names : List String) :
    Tests (· = .ident) (fun _ => True) (isAnyDirective names) := by
  intro s
  refine ⟨_, s, rfl, rfl, rfl, ?_⟩
  by_cases h : s.cur.kind = .ident <;> simp [kind_eq, h]

theorem isDirectivePeek_tests (name : String) (u : Tok) :
    Tests (· = .ident) (fun _ => True) (isDirectivePeek name u) := by
  intro s
  unfold isDirectivePeek
  split
  · refine ⟨_, _, rfl, rfl, rfl, ?_⟩
    split <;> simp_all [kind_eq]
  · exact ⟨_, s, rfl, rfl, rfl, by simp⟩

theorem Runs.kinds {f : Tok → P β} (hf : ∀ k, K k → Runs (· = k) n eaten (f k)) :
    Runs K n eaten (curKind >>= f) :=
  fun s hs hn => hf s.cur.kind hs s rfl hn

theorem Runs.tokens {f : Token → P β} (hf : ∀ t : Token, K t.kind → Runs (· = t.kind) n eaten (f t)) :
    Runs K n eaten (cur >>= f) :=
  fun s hs hn => hf s.cur hs s rfl hn

theorem advance_eats (hK : ∀ k, K k → k ≠ .eof) : Runs K n (fun _ => True) advance := by
  intro s hs _
  have := toks_pos (hK _ hs)
  exact ⟨(), _, rfl, by simp [left_eq], fun _ => by simp [left_eq]; omega⟩

theorem advance_safe : Runs K n (fun _ => False) advance :=
  fun _ _ _ => ⟨(), _, rfl, by simp [left_eq], False.elim⟩

theorem accept_safe (t : Tok) : Runs K n (fun _ => False) (accept t) :=
  Runs.test (check_tests t) (Runs.bind advance_safe fun _ => Runs.pureSafe) Runs.pureSafe

theorem accept_takes {t : Tok} (ht : t ≠ .eof) : Runs K n (· = true) (accept t) := by
  refine Runs.test (check_tests t) ?_ (Runs.pure Bool.false_ne_true)
  exact Runs.bindEatenSafe (advance_eats fun k h => h.2 ▸ ht) fun _ => Runs.pureSafe

theorem Runs.accept {t : Tok} {q q' : P β} (ht : t ≠ .eof) (hq : Safe n q)
    (hq' : Runs (fun _ => True) (n+1) eaten q') :
    Runs K (n+1) eaten (accept t >>= fun b => if b = true then q else q') :=
  Runs.take (accept_takes ht) hq hq'

theorem Runs.acceptSafe {t : Tok} {q q' : P β} (ht : t ≠ .eof) (hq : Safe n q)
    (hq' : Runs (fun _ => True) n eaten q') :
    Runs K n eaten (Tp2cc.accept t >>= fun b => if b = true then q else q') :=
  Runs.takeSafe (accept_takes ht) hq hq'

theorem expect_safe (t : Tok) (ctx : String) : Runs K n (fun _ => False) (expect t ctx) :=
  Runs.test (check_tests t) advance_safe
    (Runs.look cur_looks fun _ => (reportError_looks _).safe)

theorem expect_eats {t : Tok} (ht : t ≠ .eof) (ctx : String) :
    Runs (· = t) n (fun _ => True) (expect t ctx) := by
  refine Runs.test (check_tests t) (advance_eats fun k h => h.2 ▸ ht) fun s hs _ => ?_
  exact absurd hs.1 hs.2

theorem Runs.expect {t : Tok} {ctx : String} {p : P β}
    (hp : Runs (fun _ => True) n eaten p) : Runs K n eaten (Tp2cc.expect t ctx >>= fun _ => p) :=
  Runs.bind (expect_safe t ctx) fun _ => hp

theorem Runs.closed {t : Tok} {ctx : String} {b : β} :
    Runs K n (fun _ => False) (Tp2cc.expect t ctx >>= fun _ => (Pure.pure b : P β)) :=
  Runs.expect Runs.pureSafe

theorem Starts.expect {t : Tok} {ctx : String} {p : P β} (ht : t ≠ .eof) (hp : Safe n p) :
    Starts (· = t) n (Tp2cc.expect t ctx >>= fun _ => p) where
  eats := Runs.bindEaten (expect_eats ht ctx) fun _ => hp
  safe := Runs.expect hp

theorem Starts.advance {p : P β} (hK : ∀ k, K k → k ≠ .eof) (hp : Safe n p) :
    Starts K n (Tp2cc.advance >>= fun _ => p) where
  eats := Runs.bindEaten (advance_eats hK) fun _ => hp
  safe := Runs.bind advance_safe fun _ => hp

theorem Runs.advance {p : P β} (hK : ∀ k, K k → k ≠ .eof) (hp : Safe n p) :
    Runs K (n+1) eaten (Tp2cc.advance >>= fun _ => p) :=
  Runs.bindEaten (advance_eats hK) fun _ => hp

theorem Runs.advanceSafe {p : P β} (hK : ∀ k, K k → k ≠ .eof) (hp : Safe n p) :
    Runs K n eaten (Tp2cc.advance >>= fun _ => p) :=
  Runs.bindEatenSafe (advance_eats hK) fun _ => hp

end

/-- The routines that a routine calls after it has consumed a token, and how often its loops
may run. -/
structure Routines where
  fuel : Nat
  parseExpr : P Expr
  parseFactor : P Expr
  parseConstValue : Option TypeExpr → P Expr
  parseStatement : P Stmt
  parseType : P TypeExpr
  parseVariantPart : P (Option VariantPart)
  parseDeclBlock : Bool → P (List Decl)

structure Routines.Return (r : Routines) (n : Nat) : Prop where
  fuel : n < r.fuel
  parseExpr : Safe n r.parseExpr
  parseFactor : Safe n r.parseFactor
  parseConstValue : ∀ target, Safe n (r.parseConstValue target)
  parseStatement : Safe n r.parseStatement
  parseType : Safe n r.parseType
  parseVariantPart : Safe n r.parseVariantPart
  parseDeclBlock : ∀ inInterface, Safe n (r.parseDeclBlock inInterface)

theorem Routines.Return.fuel_le {r : Routines} {n : Nat} (h : r.Return n) : n ≤ r.fuel :=
  Nat.le_of_lt h.fuel

end Tp2cc
