import Tp2cc.Machine.Conversion

/-! Prefix expressions of C++ over one variable: text, tokens, trees and values. -/
set_option autoImplicit false

namespace Machine.Cxx

inductive Sign where
  | plus | minus
  deriving DecidableEq, Repr

def Sign.char : Sign → Char
  | .plus => '+'
  | .minus => '-'

def Sign.apply : Sign → Int → Int
  | .plus, v => v
  | .minus, v => -v

inductive Token where
  | sign (s : Sign)
  | step (s : Sign)
  | lparen
  | rparen
  | name (text : List Char)
  deriving DecidableEq, Repr

def signOf (c : Char) : Option Sign :=
  if c = '+' then some .plus else if c = '-' then some .minus else none

def nameChar (c : Char) : Bool := c.isAlphanum || c = '_' || c = ':'

def consName (c : Char) (cs : List Char) (ts : List Token) : List Token :=
  match ts with
  | .name text :: ts => if cs.head?.any nameChar then .name (c :: text) :: ts
    else .name [c] :: .name text :: ts
  | ts => .name [c] :: ts

/-- The longest token first. A sign in front of `=` or `>` is part of a token that no prefix
expression has. -/
def lex : List Char → Option (List Token)
  | [] => some []
  | c :: cs =>
    match signOf c with
    | some s =>
      match cs with
      | [] => some [.sign s]
      | d :: cs' =>
        if d = s.char then (lex cs').map (.step s :: ·)
        else if d = '=' ∨ d = '>' then none
        else (lex (d :: cs')).map (.sign s :: ·)
    | none =>
      if c = '(' then (lex cs).map (.lparen :: ·)
      else if c = ')' then (lex cs).map (.rparen :: ·)
      else if nameChar c then (lex cs).map (consName c cs)
      else none

inductive Expr where
  | ident (name : List Char)
  | sign (s : Sign) (operand : Expr)
  | step (s : Sign) (operand : Expr)
  | call (function : List Char) (argument : Expr)

def parse : List Token → Option (Expr × List Token)
  | .sign s :: ts => (parse ts).map fun p => (.sign s p.1,p.2)
  | .step s :: ts => (parse ts).map fun p => (.step s p.1,p.2)
  | .name f :: .lparen :: ts =>
    match parse ts with
    | some (e, .rparen :: rest) => some (.call f e,rest)
    | _ => none
  | .name x :: ts => some (.ident x,ts)
  | _ => none

def read (text : List Char) : Option Expr :=
  match (lex text).bind parse with
  | some (e, []) => some e
  | _ => none

namespace Expr

def isLvalue : Expr → Bool
  | .ident _ => true
  | .step _ operand => operand.isLvalue
  | .sign _ _ | .call _ _ => false

def tokens : Expr → List Token
  | .ident x => [.name x]
  | .sign s operand => .sign s :: operand.tokens
  | .step s operand => .step s :: operand.tokens
  | .call f argument => .name f :: .lparen :: (argument.tokens ++ [.rparen])

def steps : Expr → Nat
  | .ident _ => 0
  | .sign _ operand => operand.steps
  | .step _ operand => operand.steps+1
  | .call _ argument => argument.steps

end Expr

structure Value where
  type : IntType
  word : Word type

structure Cell (t : IntType) where
  content : Word t
  stores : Nat

def arithmetic (t : IntType) (v : Int) : Option Value :=
  if t.signed = true ∧ ¬t.Holds v then none else some ⟨t, .ofInt t v⟩

def Value.binary (op : Int → Int → Int) (a b : Value) : Option Value :=
  let t := a.type.usual b.type
  arithmetic t (op (t.reduce a.word.val) (t.reduce b.word.val))

def Value.sign (s : Sign) (v : Value) : Option Value :=
  arithmetic v.type.promote (s.apply v.word.val)

section
variable {t : IntType} (name : List Char) (functions : List Char → Value → Option Value)

/-- `none` where the expression is ill-formed, undefined or throws. -/
def Expr.eval : Expr → Cell t → Option (Value × Cell t)
  | .ident x, cell => if x = name then some (⟨t, cell.content⟩,cell) else none
  | .sign s operand, cell => do
    let (v,cell) ← operand.eval cell
    return (← v.sign s,cell)
  | .step s operand, cell =>
    if operand.isLvalue then do
      let (_,cell) ← operand.eval cell
      let v ← arithmetic t.promote (cell.content.val + s.apply 1)
      return (⟨t, v.word.cast t⟩,⟨v.word.cast t, cell.stores+1⟩)
    else none
  | .call f argument, cell => do
    let (v,cell) ← argument.eval cell
    return (← functions f v,cell)

variable {name functions}

theorem Expr.eval_stores {e : Expr} {cell cell' : Cell t} {v : Value}
    (h : e.eval name functions cell = some (v,cell')) : cell'.stores = cell.stores + e.steps := by
  induction e generalizing cell v cell' with
  | ident x =>
    rw [eval] at h
    split at h <;> cases h
    rfl
  | sign s operand ih =>
    obtain ⟨⟨w, cell''⟩, hw, h⟩ := Option.bind_eq_some_iff.mp h
    obtain ⟨u, -, h⟩ := Option.bind_eq_some_iff.mp h
    cases h
    exact ih hw
  | step s operand ih =>
    rw [eval] at h
    split at h
    · obtain ⟨⟨w, cell''⟩, hw, h⟩ := Option.bind_eq_some_iff.mp h
      obtain ⟨u, -, h⟩ := Option.bind_eq_some_iff.mp h
      cases h
      simp only [steps, ih hw, Nat.add_assoc]
    · cases h
  | call f argument ih =>
    obtain ⟨⟨w, cell''⟩, hw, h⟩ := Option.bind_eq_some_iff.mp h
    obtain ⟨u, -, h⟩ := Option.bind_eq_some_iff.mp h
    cases h
    exact ih hw

end

theorem Sign.signOf_char (s : Sign) : signOf s.char = some s := by
  cases s <;> rfl

theorem lex_step (s : Sign) (cs : List Char) :
    lex (s.char :: s.char :: cs) = (lex cs).map (.step s :: ·) := by
  rw [lex, s.signOf_char]
  simp

theorem lex_sign {s : Sign} {c : Char} {cs : List Char} (hc : c ≠ s.char) (h₁ : c ≠ '=')
    (h₂ : c ≠ '>') : lex (s.char :: c :: cs) = (lex (c :: cs)).map (.sign s :: ·) := by
  rw [lex, s.signOf_char]
  simp [hc, h₁, h₂]

theorem lex_lparen (cs : List Char) : lex ('(' :: cs) = (lex cs).map (.lparen :: ·) := by
  rw [lex]
  rfl

theorem lex_rparen (cs : List Char) : lex (')' :: cs) = (lex cs).map (.rparen :: ·) := by
  rw [lex]
  rfl

theorem nameChar_ne {c d : Char} (hc : nameChar c = true) (hd : nameChar d = false) : c ≠ d := by
  rintro rfl
  rw [hc] at hd
  cases hd

theorem lex_nameChar {c : Char} (h : nameChar c = true) (cs : List Char) :
    lex (c :: cs) = (lex cs).map (consName c cs) := by
  have hsign : signOf c = none := by
    simp [signOf, nameChar_ne h (d := '+') rfl, nameChar_ne h (d := '-') rfl]
  rw [lex.eq_2, hsign]
  simp [nameChar_ne h (d := '(') rfl, nameChar_ne h (d := ')') rfl, h]

theorem consName_cons {c d : Char} {cs text : List Char} {ts : List Token} (hd : nameChar d = true) :
    consName c (d :: cs) (.name text :: ts) = .name (c :: text) :: ts := by
  simp [consName, hd]

theorem lex_name {text rest : List Char} (hne : text ≠ []) (htext : text.all nameChar)
    (hrest : rest.head?.any nameChar = false) :
    lex (text ++ rest) = (lex rest).map (.name text :: ·) := by
  induction text with
  | nil => exact absurd rfl hne
  | cons c text ih =>
    obtain ⟨hc, htext⟩ : nameChar c = true ∧ text.all nameChar = true := by simpa using htext
    rw [List.cons_append, lex_nameChar hc]
    cases text with
    | nil =>
      refine congrArg (Option.map · (lex rest)) (funext fun ts => ?_)
      unfold consName
      split
      · rw [List.nil_append, hrest]
        rfl
      · rfl
    | cons d text =>
      have hd : nameChar d = true := by
        rw [List.all_cons, Bool.and_eq_true] at htext
        exact htext.1
      rw [ih (List.cons_ne_nil _ _) htext, Option.map_map]
      refine congrArg (Option.map · (lex rest)) (funext fun ts => ?_)
      exact consName_cons hd

/-- What follows an expression does not go on from it. -/
def Closed (rest : List Token) : Prop := ∀ t ∈ rest.head?, t ≠ .lparen

theorem parse_tokens (e : Expr) {rest : List Token} (h : Closed rest) :
    parse (e.tokens ++ rest) = some (e,rest) := by
  induction e generalizing rest with
  | ident x =>
    cases rest with
    | nil => rfl
    | cons t rest =>
      have ht : t ≠ .lparen := h t rfl
      rw [Expr.tokens, List.cons_append, List.nil_append, parse]
      exact fun ts heq => ht (List.cons.inj heq).1
  | sign s operand ih =>
    rw [Expr.tokens, List.cons_append, parse, ih h]
    rfl
  | step s operand ih =>
    rw [Expr.tokens, List.cons_append, parse, ih h]
    rfl
  | call f argument ih =>
    have hclose : Closed (.rparen :: rest) := by
      rintro t ⟨⟩
      exact Token.noConfusion
    rw [Expr.tokens, List.cons_append, List.cons_append, List.append_assoc, List.cons_append,
      List.nil_append, parse, ih hclose]

end Machine.Cxx
