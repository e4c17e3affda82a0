import Tp2cc.Lexer.IfExpr
import Tp2cc.Machine.Numeral

/-! The grammar of the conditions of conditional compilation, and what a condition of it means.
Every text is read from its first character that is no blank, and a lexeme takes the blanks behind
it. -/
set_option autoImplicit false

namespace Tp2cc.IfExpr
open Machine

def afterBlanks (src : List Char) : List Char := src.dropWhile isBlank

inductive Joint where
  | and | or

def Joint.word : Joint → List Char
  | .and => ['a', 'n', 'd']
  | .or => ['o', 'r']

def Joint.apply : Joint → Bool → Bool → Bool
  | .and => Bool.and
  | .or => Bool.or

def RelOp.text : RelOp → List Char
  | .eq => ['=']
  | .ne => ['<', '>']
  | .lt => ['<']
  | .le => ['<', '=']
  | .gt => ['>']
  | .ge => ['>', '=']

inductive Cond where
  | defined (sym : String)
  | bool (b : Bool)
  | int (negative : Bool) (digits : List Char)
  | symbol (name : String)
  | not (e : Cond)
  | join (j : Joint) (a b : Cond)
  | compare (op : RelOp) (a b : Cond)

/-! The lexemes at the front of a text. -/

def HasMark (c : Char) (src rest : List Char) : Prop :=
  ∃ behind, src = c :: behind ∧ rest = afterBlanks behind

def HasWord (word src rest : List Char) : Prop :=
  ∃ text behind, src = text ++ behind ∧ text.map Char.toLower = word ∧
    (∀ c ∈ behind.head?, isWordChar c = false) ∧ rest = afterBlanks behind

def HasIdent (name : String) (src rest : List Char) : Prop :=
  ∃ text behind, src = text ++ behind ∧ text ≠ [] ∧ (∀ c ∈ text, isWordChar c = true) ∧
    (∀ c ∈ behind.head?, isWordChar c = false) ∧ name = lower text ∧ rest = afterBlanks behind

def HasNumeral (negative : Bool) (digits src rest : List Char) : Prop :=
  ∃ sign behind, src = sign ++ (digits ++ behind) ∧
    (sign = ['-'] ∧ negative = true ∨ (sign = ['+'] ∨ sign = []) ∧ negative = false) ∧
    digits ≠ [] ∧ (∀ c ∈ digits, c.isDigit = true) ∧ (∀ c ∈ behind.head?, c.isDigit = false) ∧
    rest = afterBlanks behind

def HasRelop (op : RelOp) (src rest : List Char) : Prop :=
  ∃ behind, src = op.text ++ behind ∧
    (op = .lt → behind.head? ≠ some '>' ∧ behind.head? ≠ some '=') ∧
    (op = .gt → behind.head? ≠ some '=') ∧ rest = afterBlanks behind

abbrev wordNot : List Char := ['n', 'o', 't']
abbrev wordDefined : List Char := ['d', 'e', 'f', 'i', 'n', 'e', 'd']

/-- No operand of another kind begins here. -/
structure NoOther (src : List Char) : Prop where
  word : ∀ word ∈ [wordNot, wordDefined, wordTrue, wordFalse], ∀ rest, ¬ HasWord word src rest
  numeral : ∀ negative digits rest, ¬ HasNumeral negative digits src rest

/-- The parts of the grammar; a tail goes on from what stands on its left. -/
inductive Part where
  | expr
  | chain (j : Joint)
  | tail (j : Joint) (left : Cond)
  | unary
  | primary

def Joint.operand : Joint → Part
  | .and => .unary
  | .or => .chain .and

/-- `expr = simple_expr (relop simple_expr)?`, `simple_expr = and_expr ('or' and_expr)*`,
`and_expr = unary ('and' unary)*`, `unary = 'not' unary | primary`, and the operands: `src` begins
with the part, and `rest` is behind it. -/
inductive Spells : Part → List Char → Cond → List Char → Prop
  | simple {src rest : List Char} {e : Cond} : Spells (.chain .or) src e rest →
      Spells .expr src e rest
  | compare {src s₁ s₂ rest : List Char} {op : RelOp} {a b : Cond} :
      Spells (.chain .or) src a s₁ → HasRelop op s₁ s₂ → Spells (.chain .or) s₂ b rest →
      Spells .expr src (.compare op a b) rest
  | chain {j : Joint} {src s rest : List Char} {left e : Cond} : Spells j.operand src left s →
      Spells (.tail j left) s e rest → Spells (.chain j) src e rest
  | done {j : Joint} {src : List Char} {left : Cond} : Spells (.tail j left) src left src
  | more {j : Joint} {src s₁ s₂ rest : List Char} {left right e : Cond} :
      HasWord j.word src s₁ → Spells j.operand s₁ right s₂ →
      Spells (.tail j (.join j left right)) s₂ e rest → Spells (.tail j left) src e rest
  | not {src s rest : List Char} {e : Cond} : HasWord wordNot src s → Spells .unary s e rest →
      Spells .unary src (.not e) rest
  | primary {src rest : List Char} {e : Cond} : Spells .primary src e rest →
      Spells .unary src e rest
  | paren {src s₁ s₂ rest : List Char} {e : Cond} : HasMark '(' src s₁ → Spells .expr s₁ e s₂ →
      HasMark ')' s₂ rest → Spells .primary src e rest
  | defined {src s₁ s₂ s₃ rest : List Char} {sym : String} : HasWord wordDefined src s₁ →
      HasMark '(' s₁ s₂ → HasIdent sym s₂ s₃ → HasMark ')' s₃ rest →
      Spells .primary src (.defined sym) rest
  | wordTrue {src rest : List Char} : HasWord wordTrue src rest →
      Spells .primary src (.bool true) rest
  | wordFalse {src rest : List Char} : HasWord wordFalse src rest →
      Spells .primary src (.bool false) rest
  | int {src rest digits : List Char} {negative : Bool} : HasNumeral negative digits src rest →
      Spells .primary src (.int negative digits) rest
  | symbol {src rest : List Char} {name : String} : NoOther src → HasIdent name src rest →
      Spells .primary src (.symbol name) rest

def Cond.IsText (e : Cond) (text : List Char) : Prop := Spells .expr (afterBlanks text) e []

/-- What the operands stand for. -/
structure Env where
  isDefined : String → Bool
  symbol : String → Value → Prop
  int : Bool → List Char → Int

def RelOp.bools : RelOp → Option (Bool → Bool → Bool)
  | .eq => some (· == ·)
  | .ne => some (· != ·)
  | _ => none

def RelOp.ints : RelOp → Int → Int → Bool
  | .eq => fun a b => decide (a = b)
  | .ne => fun a b => decide (a ≠ b)
  | .lt => fun a b => decide (a < b)
  | .le => fun a b => decide (a ≤ b)
  | .gt => fun a b => decide (a > b)
  | .ge => fun a b => decide (a ≥ b)

/-- The condition has the value; a condition whose operands do not fit has none. -/
inductive Denotes (env : Env) : Cond → Value → Prop
  | defined {sym : String} : Denotes env (.defined sym) (.bool (env.isDefined sym))
  | bool {b : Bool} : Denotes env (.bool b) (.bool b)
  | int {negative : Bool} {digits : List Char} :
      Denotes env (.int negative digits) (.int (env.int negative digits))
  | symbol {name : String} {v : Value} : env.symbol name v → Denotes env (.symbol name) v
  | not {e : Cond} {b : Bool} : Denotes env e (.bool b) → Denotes env (.not e) (.bool !b)
  | join {j : Joint} {a b : Cond} {x y : Bool} : Denotes env a (.bool x) → Denotes env b (.bool y) →
      Denotes env (.join j a b) (.bool (j.apply x y))
  | bools {op : RelOp} {a b : Cond} {x y : Bool} {f : Bool → Bool → Bool} : op.bools = some f →
      Denotes env a (.bool x) → Denotes env b (.bool y) →
      Denotes env (.compare op a b) (.bool (f x y))
  | ints {op : RelOp} {a b : Cond} {x y : Int} : Denotes env a (.int x) → Denotes env b (.int y) →
      Denotes env (.compare op a b) (.bool (op.ints x y))

def integer (negative : Bool) (digits : List Char) : Int :=
  if negative then -(numeral 10 (digits.map (·.toNat - '0'.toNat)) : Int)
  else (numeral 10 (digits.map (·.toNat - '0'.toNat)) : Int)

inductive IsValue (text : List Char) : Value → Prop
  | wordTrue : HasWord wordTrue (afterBlanks text) [] → IsValue text (.bool true)
  | wordFalse : HasWord wordFalse (afterBlanks text) [] → IsValue text (.bool false)
  | int {negative : Bool} {digits : List Char} : HasNumeral negative digits (afterBlanks text) [] →
      IsValue text (.int (integer negative digits))

/-- Operands as they are written: integers are those of mathematics. -/
def written (defines : Symbols) : Env where
  isDefined sym := decide (sym ∈ defines)
  symbol name v := ∃ text : String, defines.lookup name = some (some text) ∧ IsValue text.toList v
  int := integer

end Tp2cc.IfExpr
