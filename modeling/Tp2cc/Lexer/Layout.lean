import Tp2cc.Lexer.Comment
import Tp2cc.Lexer.Integer
import Tp2cc.Parser.ExprTree

/-! How a list of tokens may be written down: every token in one of its spellings, with blanks and
comments between, and without them where the next character ends the token. -/
set_option autoImplicit false

namespace Tp2cc
open Machine Parsing

inductive Gap (rest : List Char) : List Char → Prop
  | nil : Gap rest []
  | blank {c : Char} {gap : List Char} : isSpace c = true → Gap rest gap → Gap rest (c :: gap)
  | brace {body gap : List Char} : Balanced '{' '}' body → noChar ∉ body →
      body.head? ≠ some '$' → Gap rest gap → Gap rest ('{' :: (body ++ '}' :: gap))
  | paren {body gap : List Char} : ¬ parenEnd <:+: body ++ ['*'] → body.head? ≠ some '$' →
      Gap rest gap → Gap rest ('(' :: '*' :: (body ++ '*' :: ')' :: gap))
  | line {body gap : List Char} : '\n' ∉ body → (∀ c ∈ (gap ++ rest).head?, c = '\n') →
      Gap rest gap → Gap rest ('/' :: '/' :: (body ++ gap))

def wordToken (key : String) : Token :=
  { kind := (keywordTable.lookup key).getD .ident, text := key }

structure RealText where
  digits : List Char
  fraction : Option (List Char)
  exponent : Option (Char × List Char × List Char)
  digits_ne : digits ≠ []
  digits_all : ∀ c ∈ digits, c.isDigit = true
  fraction_all : ∀ f ∈ fraction, f ≠ [] ∧ ∀ c ∈ f, c.isDigit = true
  exponent_all : ∀ e ∈ exponent, (e.1 = 'e' ∨ e.1 = 'E') ∧ e.2.1 ∈ [[], ['+'], ['-']] ∧
    e.2.2 ≠ [] ∧ ∀ c ∈ e.2.2, c.isDigit = true
  isReal : fraction ≠ none ∨ exponent ≠ none

namespace RealText
variable (r : RealText)

def fractionText : List Char :=
  match r.fraction with
  | none => []
  | some f => '.' :: f

def exponentText : List Char :=
  match r.exponent with
  | none => []
  | some (mark, sign, digits) => mark :: (sign ++ digits)

def text : List Char := r.digits ++ r.fractionText ++ r.exponentText

end RealText

def doubleQuotes (value : List Char) : List Char :=
  value.flatMap fun c => if c = '\'' then ['\'', '\''] else [c]

inductive StringText (rest : List Char) : List Char → List Char → Prop
  | nil : (∀ c ∈ rest.head?, c ≠ '\'' ∧ c ≠ '#') → StringText rest [] []
  | quoted {piece value text : List Char} : '\n' ∉ piece → StringText rest value text →
      (∀ c ∈ (text ++ rest).head?, c ≠ '\'') →
      StringText rest (piece ++ value) ('\'' :: (doubleQuotes piece ++ '\'' :: text))
  | code {value text : List Char} (i : IntegerText) : i.base = .decimal ∨ i.base = .hex →
      i.value < 256 → StringText rest value text →
      (∀ c ∈ (text ++ rest).head?, i.base.radix.isDigit c = false) →
      StringText rest (Char.ofNat i.value :: value) ('#' :: (i.text ++ text))

/-- The characters spell the token in front of the rest of a source. -/
inductive Spells (rest : List Char) : Lexeme → List Char → Prop
  | word {c : Char} {w : List Char} : isIdentStart c = true → (∀ d ∈ w, isIdentCont d = true) →
      (∀ d ∈ rest.head?, isIdentCont d = false) →
      Spells rest (wordToken (lower (c :: w))).lexeme (c :: w)
  | integer (i : IntegerText) : i.value < 2^64 → i.EndsBefore rest →
      Spells rest (.intLit i.value) i.text
  | real (r : RealText) : (∀ c ∈ rest.head?, c.isDigit = false ∧ c ≠ 'e' ∧ c ≠ 'E') →
      Spells rest (.realLit (String.ofList r.text)) r.text
  | string {value text : List Char} : StringText rest value text → text ≠ [] →
      Spells rest (.stringLit (String.ofList value)) text
  | pair {c d : Char} {k : Tok} : pairPunctuation c d = some k → Spells rest (.mark k) [c, d]
  | single {c : Char} {k : Tok} : singlePunctuation c = some k →
      (∀ d ∈ rest.head?, pairPunctuation c d = none) → (c = '/' → rest.head? ≠ some '/') →
      (c = '(' → rest.head? ≠ some '*') → Spells rest (.mark k) [c]

/-- The source is the tokens in their order, with gaps before them and at the end. -/
inductive Writes : List Lexeme → List Char → Prop
  | nil {gap : List Char} : Gap [] gap → Writes [] gap
  | cons {l : Lexeme} {L : List Lexeme} {gap word rest : List Char} :
      Gap (word ++ rest) gap → Spells rest l word → Writes L rest →
      Writes (l :: L) (gap ++ (word ++ rest))

end Tp2cc
