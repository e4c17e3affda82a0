import Mathlib.Data.List.Basic

set_option autoImplicit false

namespace Machine.Cxx

/-- The second phase of translation: a backslash at the end of a line joins it with the next one. -/
def spliceLines : List Char → List Char
  | [] => []
  | [c] => [c]
  | c :: d :: cs => if c = '\\' ∧ d = '\n' then spliceLines cs else c :: spliceLines (d :: cs)

/-- Where the reader of a literal stands: behind a whole character, behind a backslash, or in an
octal escape of which it has some digits. -/
inductive LiteralState where
  | plain
  | escape
  | octal (value digits : Nat)
  deriving DecidableEq

inductive LiteralStep where
  | byte (b : UInt8)
  | enter (s : LiteralState)
  | close
  | invalid
  deriving DecidableEq

def octalDigit? (c : Char) : Option Nat :=
  if 48 ≤ c.toNat ∧ c.toNat < 56 then some (c.toNat-48) else none

def simpleEscape? (c : Char) : Option UInt8 :=
  if c = 'n' then some 10
  else if c = 't' then some 9
  else if c = 'r' then some 13
  else if c = '\\' then some 92
  else if c = '"' then some 34
  else if c = '\'' then some 39
  else if c = '?' then some 63
  else if c = 'a' then some 7
  else if c = 'b' then some 8
  else if c = 'f' then some 12
  else if c = 'v' then some 11
  else none

/-- Characters outside ASCII have an encoding of their own and are left out here. -/
def plainStep (c : Char) : LiteralStep :=
  if c = '"' then .close
  else if c = '\n' then .invalid
  else if c = '\\' then .enter .escape
  else if c.toNat < 128 then .byte (.ofNat c.toNat)
  else .invalid

def escapeStep (c : Char) : LiteralStep :=
  match octalDigit? c, simpleEscape? c with
  | some d, _ => .enter (.octal d 1)
  | none, some b => .byte b
  | none, none => .invalid

/-- The bytes that a character completes, and what it is for. An octal escape takes up to three
digits, and is complete with any other character. -/
def literalStep : LiteralState → Char → Option (List UInt8 × LiteralStep)
  | .plain, c => some ([],plainStep c)
  | .escape, c => some ([],escapeStep c)
  | .octal value digits, c =>
    match octalDigit? c with
    | some d =>
      if digits < 3 then some ([],.enter (.octal (8*value+d) (digits+1)))
      else if value < 256 then some ([.ofNat value],plainStep c)
      else none
    | none => if value < 256 then some ([.ofNat value],plainStep c) else none

def prepend (bytes : List UInt8) (r : Option (List UInt8 × List Char)) :
    Option (List UInt8 × List Char) :=
  r.map fun p => (bytes ++ p.1,p.2)

def readLiteral : LiteralState → List Char → Option (List UInt8 × List Char)
  | _, [] => none
  | s, c :: cs =>
    match literalStep s c with
    | some (bytes, .byte b) => prepend (bytes ++ [b]) (readLiteral .plain cs)
    | some (bytes, .enter s) => prepend bytes (readLiteral s cs)
    | some (bytes, .close) => some (bytes,cs)
    | some (_, .invalid) => none
    | none => none

@[simp] theorem prepend_nil (r : Option (List UInt8 × List Char)) : prepend [] r = r := by
  cases r <;> rfl

@[simp] theorem prepend_prepend (xs ys : List UInt8) (r : Option (List UInt8 × List Char)) :
    prepend xs (prepend ys r) = prepend (xs ++ ys) r := by
  cases r <;> simp [prepend]

section
variable {c : Char} {cs : List Char}

theorem spliceLines_cons (h : c ≠ '\\' ∨ ∀ ds, cs ≠ '\n' :: ds) :
    spliceLines (c :: cs) = c :: spliceLines cs := by
  cases cs with
  | nil => rfl
  | cons d ds =>
    rw [spliceLines, if_neg]
    rintro ⟨hc, hd⟩
    cases h with
    | inl h => exact h hc
    | inr h => exact h ds (hd ▸ rfl)

theorem spliceLines_append {text : List Char} (h : ∀ c ∈ text, c ≠ '\n') (hcs : ∀ ds, cs ≠ '\n' :: ds) :
    spliceLines (text ++ cs) = text ++ spliceLines cs := by
  induction text with
  | nil => rfl
  | cons c text ih =>
    rw [List.cons_append, spliceLines_cons, ih fun d hd => h d (List.mem_cons_of_mem c hd),
      List.cons_append]
    refine .inr fun ds hds => ?_
    cases text with
    | nil => exact hcs ds hds
    | cons d text =>
      have hd := h d (List.mem_cons_of_mem c List.mem_cons_self)
      cases hds
      exact hd rfl

theorem readLiteral_octal {value : Nat} (h : value < 256) :
    readLiteral (.octal value 3) cs = prepend [.ofNat value] (readLiteral .plain cs) := by
  cases cs with
  | nil => rfl
  | cons c cs =>
    have hstep : literalStep (.octal value 3) c = some ([.ofNat value],plainStep c) := by
      cases hc : octalDigit? c <;> simp [literalStep, hc, h]
    have hplain : literalStep .plain c = some ([],plainStep c) := rfl
    rw [readLiteral, hstep, readLiteral, hplain]
    cases plainStep c <;> simp [prepend, Function.comp_def]

theorem readLiteral_digits {x y z : Char} {a b d : Nat} (hx : octalDigit? x = some a)
    (hy : octalDigit? y = some b) (hz : octalDigit? z = some d) (h : 64*a+8*b+d < 256) :
    readLiteral .plain ('\\' :: x :: y :: z :: cs) =
      prepend [.ofNat (64*a+8*b+d)] (readLiteral .plain cs) := by
  have hback : literalStep .plain '\\' = some ([],.enter .escape) := by decide
  have hfirst : literalStep .escape x = some ([],.enter (.octal a 1)) := by
    simp [literalStep, escapeStep, hx]
  have hsecond : literalStep (.octal a 1) y = some ([],.enter (.octal (8*a+b) 2)) := by
    simp [literalStep, hy]
  have hthird : literalStep (.octal (8*a+b) 2) z =
      some ([],.enter (.octal (8*(8*a+b)+d) 3)) := by
    simp [literalStep, hz]
  have hvalue : 8*(8*a+b)+d = 64*a+8*b+d := by omega
  simp only [readLiteral, hback, hfirst, hsecond, hthird, hvalue, prepend_nil, readLiteral_octal h]

theorem readLiteral_simple {b : UInt8} (h : simpleEscape? c = some b) (hc : octalDigit? c = none) :
    readLiteral .plain ('\\' :: c :: cs) = prepend [b] (readLiteral .plain cs) := by
  have hback : literalStep .plain '\\' = some ([],.enter .escape) := by decide
  have hescape : literalStep .escape c = some ([],.byte b) := by
    simp [literalStep, escapeStep, h, hc]
  simp only [readLiteral, hback, hescape, prepend_nil, List.nil_append]

theorem readLiteral_plain (hquote : c ≠ '"') (hline : c ≠ '\n') (hback : c ≠ '\\')
    (hascii : c.toNat < 128) :
    readLiteral .plain (c :: cs) = prepend [.ofNat c.toNat] (readLiteral .plain cs) := by
  have hstep : literalStep .plain c = some ([],.byte (.ofNat c.toNat)) := by
    simp [literalStep, plainStep, hquote, hline, hback, hascii]
  simp only [readLiteral, hstep, List.nil_append]

end
end Machine.Cxx
