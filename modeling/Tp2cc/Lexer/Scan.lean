import Tp2cc.Lexer.Directive
import Tp2cc.Machine.Numeral

/-! The scanners: what each takes off the front of a source, and the token it makes of it. -/
set_option autoImplicit false

namespace Tp2cc
open Machine

structure Scan where
  token : Token
  rest : List Char
  errors : List String := []

def isIdentStart (c : Char) : Bool := c.isAlpha || c = '_'
def isIdentCont (c : Char) : Bool := isIdentStart c || c.isDigit

def isHex (c : Char) : Bool :=
  c.isDigit || (decide ('a' ≤ c) && decide (c ≤ 'f')) || (decide ('A' ≤ c) && decide (c ≤ 'F'))

def digitVal (c : Char) : Nat := c.toNat - '0'.toNat

def hexVal (c : Char) : Nat :=
  if c.isDigit then digitVal c
  else if 'a' ≤ c ∧ c ≤ 'f' then 10 + (c.toNat - 'a'.toNat)
  else 10 + (c.toNat - 'A'.toNat)

def keywordTable : List (String × Tok) :=
  [("and", .kwAnd), ("array", .kwArray), ("as", .kwAs), ("asm", .kwAsm), ("begin", .kwBegin),
   ("case", .kwCase), ("class", .kwClass), ("const", .kwConst), ("constructor", .kwConstructor),
   ("destructor", .kwDestructor), ("div", .kwDiv), ("do", .kwDo), ("downto", .kwDownto),
   ("else", .kwElse), ("end", .kwEnd), ("except", .kwExcept), ("exports", .kwExports),
   ("false", .kwFalse), ("file", .kwFile), ("finalization", .kwFinalization),
   ("finally", .kwFinally), ("for", .kwFor), ("function", .kwFunction), ("goto", .kwGoto),
   ("if", .kwIf), ("implementation", .kwImplementation), ("in", .kwIn),
   ("inherited", .kwInherited), ("initialization", .kwInitialization),
   ("interface", .kwInterface), ("is", .kwIs), ("label", .kwLabel), ("library", .kwLibrary),
   ("mod", .kwMod), ("nil", .kwNil), ("not", .kwNot), ("object", .kwObject), ("of", .kwOf),
   ("operator", .kwOperator), ("or", .kwOr), ("otherwise", .kwOtherwise), ("packed", .kwPacked),
   ("procedure", .kwProcedure), ("program", .kwProgram), ("raise", .kwRaise),
   ("record", .kwRecord), ("repeat", .kwRepeat), ("resourcestring", .kwResourcestring),
   ("self", .kwSelf), ("set", .kwSet), ("shl", .kwShl), ("shortstring", .kwShortstring),
   ("shr", .kwShr), ("string", .kwString), ("then", .kwThen), ("threadvar", .kwThreadvar),
   ("to", .kwTo), ("true", .kwTrue), ("try", .kwTry), ("type", .kwType), ("unit", .kwUnit),
   ("until", .kwUntil), ("uses", .kwUses), ("var", .kwVar), ("while", .kwWhile),
   ("with", .kwWith), ("xor", .kwXor)]

def scanIdentifierOrKeyword (src : List Char) : Scan :=
  let key := lower (src.takeWhile isIdentCont)
  { token := { kind := (keywordTable.lookup key).getD .ident, text := key },
    rest := src.dropWhile isIdentCont }

/-- Adds a digit in `w` bits; past an overflow nothing is added. -/
def accumulateDigit (w base : Nat) (value : Nat × Bool) (digit : Nat) : Nat × Bool :=
  if value.2 then value
  else if 2^w ≤ value.1*base then (value.1, true)
  else if 2^w ≤ value.1*base+digit then ((value.1*base+digit) % 2^w, true)
  else (value.1*base+digit, false)

structure Radix where
  mark : List Char
  base : Nat
  isDigit : Char → Bool
  digit : Char → Nat

namespace Radix

def hex : Radix := ⟨['$'], 16, isHex, hexVal⟩
def binary : Radix := ⟨['%'], 2, fun c => c = '0' || c = '1', digitVal⟩
def octal : Radix := ⟨['&'], 8, fun c => decide ('0' ≤ c) && decide (c ≤ '7'), digitVal⟩
def decimal : Radix := ⟨[], 10, Char.isDigit, digitVal⟩

variable (r : Radix)

def accumulate (w : Nat) (src : List Char) : Nat × Bool :=
  (src.takeWhile r.isDigit).foldl (fun v c => accumulateDigit w r.base v (r.digit c)) (0, false)

def afterDigits (src : List Char) : List Char := src.dropWhile r.isDigit

end Radix

def intLit (text : List Char) (value : Nat × Bool) (rest : List Char) : Scan :=
  { token := { kind := .intLit, text := String.ofList text, intValue := value.1 }, rest,
    errors := if value.2 then ["integer literal exceeds 64 bits"] else [] }

def scanMarked (r : Radix) (src : List Char) : Scan :=
  intLit (r.mark ++ src.takeWhile r.isDigit) (r.accumulate 64 src) (r.afterDigits src)

/-- A fraction and what is behind it; `..` is no decimal point. -/
def scanFraction : List Char → List Char × List Char
  | '.' :: src =>
    if src.head? = some '.' then ([], '.' :: src)
    else ('.' :: src.takeWhile Char.isDigit, src.dropWhile Char.isDigit)
  | src => ([], src)

def scanExponentSign : List Char → List Char × List Char
  | '+' :: src => (['+'], src)
  | '-' :: src => (['-'], src)
  | src => ([], src)

def scanExponent : List Char → List Char × List Char
  | c :: src =>
    if c = 'e' ∨ c = 'E' then
      let (sign, digits) := scanExponentSign src
      (c :: sign ++ digits.takeWhile Char.isDigit, digits.dropWhile Char.isDigit)
    else ([], c :: src)
  | [] => ([], [])

def scanDecimal (src : List Char) : Scan :=
  let digits := src.takeWhile Char.isDigit
  let (fraction, behind) := scanFraction (src.dropWhile Char.isDigit)
  let (exponent, rest) := scanExponent behind
  if fraction = [] ∧ exponent = [] then intLit digits (Radix.decimal.accumulate 64 src) rest
  else
    { token := { kind := .realLit, text := String.ofList (digits ++ fraction ++ exponent) }, rest }

def scanNumber : List Char → Scan
  | '$' :: src => scanMarked .hex src
  | '%' :: src => scanMarked .binary src
  | '&' :: src => scanMarked .octal src
  | src => scanDecimal src

inductive QuoteEnd where
  | closed | newline | endOfFile

/-- The inside of a quoted piece, where a doubled quote is one quote. -/
def scanQuoted : List Char → List Char × QuoteEnd × List Char
  | [] => ([], .endOfFile, [])
  | '\n' :: src => ([], .newline, '\n' :: src)
  | '\'' :: '\'' :: src =>
    let (text, ending, rest) := scanQuoted src
    ('\'' :: text, ending, rest)
  | '\'' :: src => ([], .closed, src)
  | c :: src =>
    let (text, ending, rest) := scanQuoted src
    (c :: text, ending, rest)

/-- The character code behind `#`, accumulated in 32 bits, and what is behind it. -/
def scanCode : List Char → (Nat × Bool) × List Char
  | '$' :: src => (Radix.hex.accumulate 32 src, Radix.hex.afterDigits src)
  | src => (Radix.decimal.accumulate 32 src, Radix.decimal.afterDigits src)

theorem scanQuoted_length_le (src : List Char) : (scanQuoted src).2.2.length ≤ src.length := by
  fun_induction scanQuoted src <;> simp_all <;> omega

theorem scanCode_length_le (src : List Char) : (scanCode src).2.length ≤ src.length := by
  unfold scanCode Radix.afterDigits
  split
  · exact (List.dropWhile_sublist _).length_le.trans (Nat.le_succ _)
  · exact (List.dropWhile_sublist _).length_le

/-- Quoted pieces and character codes, joined to one literal. -/
def scanStringPieces (src : List Char) : List Char × List String × List Char :=
  match src with
  | '\'' :: piece =>
    match (scanQuoted piece).2.1 with
    | .closed =>
      let (text, errors, rest) := scanStringPieces (scanQuoted piece).2.2
      ((scanQuoted piece).1 ++ text, errors, rest)
    | .newline => ((scanQuoted piece).1, ["newline in string literal"], (scanQuoted piece).2.2)
    | .endOfFile => ((scanQuoted piece).1, ["unterminated string literal"], (scanQuoted piece).2.2)
  | '#' :: code =>
    let (value, overflow) := (scanCode code).1
    let (text, errors, rest) := scanStringPieces (scanCode code).2
    if overflow || decide (255 < value) then
      (Char.ofNat 0 :: text,
        "character escape `#' value out of range (expected 0..255)" :: errors, rest)
    else (Char.ofNat value :: text, errors, rest)
  | src => ([], [], src)
termination_by src.length
decreasing_by
  · have := scanQuoted_length_le piece
    simp only [List.length_cons]
    omega
  · have := scanCode_length_le code
    simp only [List.length_cons]
    omega

def scanString (src : List Char) : Scan :=
  let (text, errors, rest) := scanStringPieces src
  { token := { kind := .stringLit, text := String.ofList text }, rest, errors }

def pairPunctuation : Char → Char → Option Tok
  | '*', '*' => some .starStar
  | '<', '=' => some .ltEq
  | '<', '>' => some .notEq
  | '<', '<' => some .kwShl
  | '>', '=' => some .gtEq
  | '>', '<' => some .symDiff
  | '>', '>' => some .kwShr
  | ':', '=' => some .assign
  | '@', '@' => some .atAt
  | '.', '.' => some .dotDot
  | _, _ => none

def singlePunctuation : Char → Option Tok
  | '+' => some .plus
  | '-' => some .minus
  | '*' => some .star
  | '/' => some .slash
  | '=' => some .eq
  | '<' => some .lt
  | '>' => some .gt
  | ':' => some .colon
  | ';' => some .semi
  | ',' => some .comma
  | '(' => some .lParen
  | ')' => some .rParen
  | '[' => some .lBrack
  | ']' => some .rBrack
  | '^' => some .caret
  | '@' => some .atSign
  | '.' => some .dot
  | _ => none

def hexByte (n : Nat) : String :=
  String.ofList ((if n < 16 then ['0'] else []) ++ Nat.toDigits 16 n)

def scanSingle (c : Char) (rest : List Char) : Scan :=
  match singlePunctuation c with
  | some kind => { token := { kind, text := String.ofList [c] }, rest }
  | none =>
    { token := { kind := .error, text := String.ofList [c] }, rest,
      errors := ["unexpected character 0x" ++ hexByte c.toNat] }

def scanPunctuation (c : Char) : List Char → Scan
  | [] => scanSingle c []
  | d :: rest =>
    match pairPunctuation c d with
    | some kind => { token := { kind, text := String.ofList [c, d] }, rest }
    | none => scanSingle c (d :: rest)

def opensString (c : Char) : Bool := c = '\'' || c = '#'
def opensNumber (c : Char) : Bool := c.isDigit || c = '$' || c = '%' || c = '&'

def scan (c : Char) (src : List Char) : Scan :=
  if isIdentStart c then scanIdentifierOrKeyword (c :: src)
  else if opensNumber c then scanNumber (c :: src)
  else if opensString c then scanString (c :: src)
  else scanPunctuation c src

end Tp2cc
