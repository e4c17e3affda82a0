import Tp2cc.Lexer.Scan
import Tp2cc.Machine.Loop

/-! The lexer: the loop that skips whitespace, comments and directives, and `next`, which scans a
token where the source is accepted. -/
set_option autoImplicit false

namespace Tp2cc
open Machine

/-- The end of a file: what `peek` answers there. -/
def noChar : Char := Char.ofNat 0

/-- Behind the brace that closes the outermost of `depth` open ones: the depth reached and what
is left. The loop also stops where `peek` answers zero. -/
def skipBraces : Nat → List Char → Nat × List Char
  | 0, src => (0, src)
  | depth+1, [] => (depth+1, [])
  | depth+1, c :: src =>
    if c = noChar then (depth+1, c :: src)
    else if c = '{' then skipBraces (depth+2) src
    else if c = '}' then skipBraces depth src
    else skipBraces (depth+1) src

/-- The same where a file that ends goes on in the one that includes it. -/
def skipBraceInputs (depth : Nat) : List Lexer.Input → List Lexer.Input
  | [] => []
  | input :: below =>
    match skipBraces depth input.contents with
    | (depth+1, []) =>
      if below = [] then [{ input with contents := [] }] else skipBraceInputs (depth+1) below
    | (_, rest) => { input with contents := rest } :: below

def skipParen : List Char → List Char
  | [] => []
  | '*' :: ')' :: src => src
  | _ :: src => skipParen src

def beforeParen : List Char → List Char
  | [] => []
  | '*' :: ')' :: _ => []
  | c :: src => c :: beforeParen src

def skipLine (src : List Char) : List Char := src.dropWhile (· ≠ '\n')

namespace Lexer

def ofSource (path : String) (contents : List Char) : Lexer :=
  { stack := [⟨path, skipMark contents⟩], defines := ∅, qCheck := false, rCheck := false,
    tTypedAddresses := false, hLongStrings := false, packenum := 4, defaultInterfaceMode := .com,
    interfaceMode := .com, ifdefStack := [], diagnostics := [] }

variable (files : IncludeFiles) (l : Lexer)

def contents : List Char := (l.stack.head?.map (·.contents)).getD []

def goto (rest : List Char) : Lexer :=
  { l with stack := l.stack.modifyHead fun input => { input with contents := rest } }

@[simp] theorem goto_ifdefStack (rest : List Char) : (l.goto rest).ifdefStack = l.ifdefStack := rfl
@[simp] theorem goto_diagnostics (rest : List Char) :
    (l.goto rest).diagnostics = l.diagnostics := rfl

theorem contents_goto {l : Lexer} (h : l.contents ≠ []) (rest : List Char) :
    (l.goto rest).contents = rest := by
  cases hs : l.stack with
  | nil => simp [contents, hs] at h
  | cons input below => simp [contents, goto, hs]

def popInputIfEof : Option Lexer :=
  match l.stack with
  | ⟨_, []⟩ :: input :: below => some { l with stack := input :: below }
  | _ => none

def skipBraceComment : Lexer := { l with stack := skipBraceInputs 1 l.stack }

def handleDirectiveAtBrace (body : List Char) : Lexer :=
  ((l.goto ((body.dropWhile (· ≠ '}')).drop 1)).handleDirective files
    (body.takeWhile (· ≠ '}')))

def handleDirectiveAtParen (body : List Char) : Lexer :=
  (l.goto (skipParen body)).handleDirective files (beforeParen body)

/-- A turn of the loop of `skip_ws_and_comments` where no file ends; `none` once it returns. -/
def skipTurn : Option Lexer :=
  match l.contents with
  | [] => none
  | c :: src =>
    if isSpace c then some (l.goto src)
    else
      match c, src with
      | '/', '/' :: _ => some (l.goto (skipLine (c :: src)))
      | '{', '$' :: body => some (l.handleDirectiveAtBrace files body)
      | '{', src => some (l.goto src).skipBraceComment
      | '(', '*' :: '$' :: body => some (l.handleDirectiveAtParen files body)
      | '(', '*' :: src => some (l.goto (skipParen src))
      | _, _ => none

end Lexer

def Settings.modes (s : Settings) : Modes :=
  { longStrings := s.hLongStrings, packenum := s.packenum, interfaceMode := s.interfaceMode,
    overflowCheck := s.qCheck, rangeCheck := s.rCheck }

namespace Lexer
variable (files : IncludeFiles) (l : Lexer)

/-- Goes on behind what was scanned, with its errors. -/
def behind (s : Scan) : Lexer :=
  { l.goto s.rest with diagnostics := l.diagnostics ++ s.errors.map .error }

@[simp] theorem behind_accepting (s : Scan) : (l.behind s).accepting = l.accepting := rfl
@[simp] theorem behind_diagnostics (s : Scan) :
    (l.behind s).diagnostics = l.diagnostics ++ s.errors.map .error := rfl

theorem contents_behind {l : Lexer} (h : l.contents ≠ []) (s : Scan) :
    (l.behind s).contents = s.rest := contents_goto h s.rest

/-- A turn of the loop of `next` once `skip_ws_and_comments` has returned. Where the source is
rejected, literals are passed over whole. -/
def scanTurn : LoopStep Lexer (Token × Lexer) :=
  match l.contents with
  | [] => .done ({ kind := .eof, modes := l.modes }, l)
  | c :: src =>
    if l.accepting then
      let s := scan c src
      .done ({ s.token with modes := l.modes }, l.behind s)
    else if opensString c then .again (l.behind (scanString (c :: src)))
    else .again (l.goto src)

def turn : LoopStep Lexer (Token × Lexer) :=
  match l.popInputIfEof with
  | some l' => .again l'
  | none =>
    match l.skipTurn files with
    | some l' => .again l'
    | none => l.scanTurn

def Plain (c : Char) : Prop := isSpace c = false ∧ c ≠ '/' ∧ c ≠ '{' ∧ c ≠ '('

instance (c : Char) : Decidable (Plain c) := inferInstanceAs (Decidable (_ ∧ _))

section
variable {files l} {c : Char} {src : List Char}

theorem opensNumber_plain (h : opensNumber c = true) : Plain c ∧ isIdentStart c = false := by
  by_cases hd : c.isDigit = true
  · have hne (d : Char) (h : d.isDigit = false) : c ≠ d := by
      rintro rfl
      rw [hd] at h
      contradiction
    have halpha : c.isAlpha = false := by
      change (decide ('A'.val ≤ c.val ∧ c.val ≤ 'Z'.val) ||
        (decide ('a'.val ≤ c.val) && decide (c.val ≤ 'z'.val))) = false
      grind [Char.isDigit]
    refine ⟨⟨?_, hne _ rfl, hne _ rfl, hne _ rfl⟩, ?_⟩
    · simp [isSpace, hne ' ' rfl, hne '\t' rfl, hne '\r' rfl, hne '\n' rfl]
    · simp [isIdentStart, halpha, hne '_' rfl]
  · simp only [opensNumber, hd, Bool.or_eq_true, decide_eq_true_eq] at h
    rcases h with ((h | rfl) | rfl) | rfl
    · contradiction
    all_goals exact ⟨by decide, by decide⟩

theorem popInputIfEof_cons (h : l.contents = c :: src) : l.popInputIfEof = none := by
  unfold popInputIfEof
  split
  · rename_i hs
    simp [contents, hs] at h
  · rfl

theorem skipTurn_plain (h : l.contents = c :: src) (hc : Plain c) : l.skipTurn files = none := by
  obtain ⟨hspace, hslash, hbrace, hparen⟩ := hc
  simp only [skipTurn, h, hspace, Bool.false_eq_true, if_false]
  split <;> simp_all

theorem skipTurn_nil (h : l.contents = []) : l.skipTurn files = none := by
  simp [skipTurn, h]

theorem turn_scan (h : l.contents = c :: src) (hc : Plain c) (ha : l.accepting = true) :
    l.turn files =
      .done ({ (scan c src).token with modes := l.modes }, l.behind (scan c src)) := by
  simp [turn, popInputIfEof_cons h, skipTurn_plain h hc, scanTurn, h, ha]

end

/-- The next token; `none` only when the fuel runs out. -/
def next (fuel : Nat) : Option (Token × Lexer) := loop (turn files) fuel l

end Lexer
end Tp2cc
