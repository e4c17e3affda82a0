import Mathlib.Data.List.AList
import Tp2cc.Machine.Word
import Tp2cc.Parsing.Consuming

/-! The conditions of conditional compilation: a recursive descent over the text of the condition,
with the failures it notes on the way. -/
set_option autoImplicit false

namespace Tp2cc
open Machine Parsing

/-- The conditional symbols under their lowercased names; one without a text is defined only. -/
abbrev Symbols : Type := AList fun _ : String => Option String

def isBlank (c : Char) : Bool := c = ' ' || c = '\t'
def isSpace (c : Char) : Bool := c = ' ' || c = '\t' || c = '\r' || c = '\n'
def isWordChar (c : Char) : Bool := c.isAlphanum || c = '_'

def lower (text : List Char) : String := String.ofList (text.map Char.toLower)

def trim (text : List Char) : List Char :=
  ((text.dropWhile isSpace).reverse.dropWhile isSpace).reverse

namespace IfExpr

inductive Value where
  | bool (b : Bool)
  | int (i : Int)

structure State where
  src : List Char
  ok : Bool := true
  error : String := ""

instance : Input State Unit where
  left s := s.src.length
  kind _ := ()

abbrev IP : Type → Type := Parser State

def fail (msg : String) : IP Unit := fun s =>
  some ((), { s with ok := false, error := if s.error = "" then msg else s.error })

def skipWs : IP Unit := fun s => some ((), { s with src := s.src.dropWhile isBlank })

def eof : IP Bool := do
  skipWs
  fun s => some (s.src.isEmpty, s)

def matchChar (c : Char) : IP Bool := do
  skipWs
  fun s =>
    match s.src with
    | d :: rest => if d = c then some (true, { s with src := rest }) else some (false, s)
    | [] => some (false, s)

/-- `word` is lowercase; what follows it must not go on with the word. -/
def matchWord (word : List Char) : IP Bool := do
  skipWs
  fun s =>
    let rest := s.src.drop word.length
    if (s.src.take word.length).map Char.toLower = word && !rest.head?.any isWordChar then
      some (true, { s with src := rest })
    else some (false, s)

def int64 : IntType := ⟨true, 64, IntType.sixtyFour_pos⟩

def readDigits (digits : List Char) : Int :=
  digits.foldl (fun value d => int64.reduce (value*10+(d.toNat - '0'.toNat))) 0

def afterSign : List Char → List Char
  | '+' :: rest => rest
  | '-' :: rest => rest
  | src => src

def readInt : IP (Option Int) := do
  skipWs
  fun s =>
    let digits := (afterSign s.src).takeWhile Char.isDigit
    if digits = [] then some (none, s)
    else
      let value := readDigits digits
      some (some (if s.src.head? = some '-' then int64.reduce (-value) else value),
        { s with src := (afterSign s.src).dropWhile Char.isDigit })

def readIdent : IP String := do
  skipWs
  fun s => some (lower (s.src.takeWhile isWordChar), { s with src := s.src.dropWhile isWordChar })

def wordTrue : List Char := ['t', 'r', 'u', 'e']
def wordFalse : List Char := ['f', 'a', 'l', 's', 'e']

def matchLastWord (word : List Char) : IP Bool := do
  if ← matchWord word then eof else return false

/-- The three attempts go on where the one before has stopped. -/
def parseMacroValue : IP (Option Value) := do
  if ← matchLastWord wordTrue then return some (.bool true)
  else if ← matchLastWord wordFalse then return some (.bool false)
  else do
    match ← readInt with
    | none => return none
    | some v => do
      if ← eof then return some (.int v) else return none

def macroValue (text : String) : Option Value :=
  (parseMacroValue { src := text.toList }).bind (·.1)

section
variable (defines : Symbols)

def parseDefined : IP Value := do
  if ← matchChar '(' then do
    let sym ← readIdent
    if sym = "" then do
      fail "expected symbol name in `defined(...)' in \x7b$if\x7d expression"
      return .bool false
    else if ← matchChar ')' then return .bool (decide (sym ∈ defines))
    else do
      fail "expected `)' after symbol name in \x7b$if\x7d expression"
      return .bool false
  else do
    fail "expected `(' after `defined' in \x7b$if\x7d expression"
    return .bool false

def parseSymbol : IP Value := do
  let ident ← readIdent
  if ident = "" then do
    fail "expected operand in \x7b$if\x7d expression"
    return .bool false
  else
    match defines.lookup ident with
    | some (some text) =>
      match macroValue text with
      | some v => return v
      | none => do
        fail ("symbol `" ++ ident ++ "' has unsupported \x7b$if\x7d value `" ++ text ++ "'")
        return .bool false
    | _ => do
      fail ("undefined symbol `" ++ ident ++ "' in \x7b$if\x7d expression")
      return .bool false

/-- What is called once a character is consumed, and how often the loops may run. -/
structure Routines where
  fuel : Nat
  parseExpr : IP Value
  parseUnary : IP Value

variable (r : Routines)

def parsePrimary : IP Value := do
  if ← matchChar '(' then do
    let v ← r.parseExpr
    if ← matchChar ')' then return v
    else do
      fun s => some ((), { s with ok := false })
      return v
  else if ← matchWord ['d', 'e', 'f', 'i', 'n', 'e', 'd'] then parseDefined defines
  else if ← matchWord wordTrue then return .bool true
  else if ← matchWord wordFalse then return .bool false
  else do
    match ← readInt with
    | some v => return .int v
    | none => parseSymbol defines

def negate : Value → IP Value
  | .bool b => return .bool !b
  | .int _ => do
    fail "operator `not' requires a boolean operand in \x7b$if\x7d expression"
    return .bool true

def parseUnary : IP Value := do
  if ← matchWord ['n', 'o', 't'] then do
    let v ← r.parseUnary
    negate v
  else parsePrimary defines r

/-- A chain of operands joined by the operator `word`; it ends at an operand that is not
boolean. -/
def parseChain (word : List Char) (apply : Bool → Bool → Bool) (operand : IP Value) : IP Value := do
  let v ← operand
  loop (fun v => do
    if ← matchWord word then do
      match v, ← operand with
      | .bool a, .bool b => return .again (.bool (apply a b))
      | _, _ => do
        fail ("operator `" ++ String.ofList word ++
          "' requires boolean operands in \x7b$if\x7d expression")
        return .done (.bool false)
    else return .done v) r.fuel v

def parseAnd : IP Value := parseChain r ['a', 'n', 'd'] and (parseUnary defines r)

def parseSimpleExpr : IP Value := parseChain r ['o', 'r'] or (parseAnd defines r)

inductive RelOp where
  | eq | ne | lt | le | gt | ge

def matchRelop : IP (Option RelOp) := do
  skipWs
  fun s =>
    match s.src with
    | '=' :: rest => some (some .eq, { s with src := rest })
    | '<' :: '>' :: rest => some (some .ne, { s with src := rest })
    | '<' :: '=' :: rest => some (some .le, { s with src := rest })
    | '<' :: rest => some (some .lt, { s with src := rest })
    | '>' :: '=' :: rest => some (some .ge, { s with src := rest })
    | '>' :: rest => some (some .gt, { s with src := rest })
    | _ => some (none, s)

def compareValues : RelOp → Value → Value → IP Value
  | .eq, .bool a, .bool b => return .bool (a == b)
  | .ne, .bool a, .bool b => return .bool (a != b)
  | _, .bool _, .bool _ => do
    fail "only `=' and `<>' are valid for boolean \x7b$if\x7d values"
    return .bool false
  | .eq, .int a, .int b => return .bool (decide (a = b))
  | .ne, .int a, .int b => return .bool (decide (a ≠ b))
  | .lt, .int a, .int b => return .bool (decide (a < b))
  | .gt, .int a, .int b => return .bool (decide (a > b))
  | .le, .int a, .int b => return .bool (decide (a ≤ b))
  | .ge, .int a, .int b => return .bool (decide (a ≥ b))
  | _, _, _ => do
    fail "cannot compare boolean and integer values in \x7b$if\x7d expression"
    return .bool false

def parseExpr : IP Value := do
  let lhs ← parseSimpleExpr defines r
  match ← matchRelop with
  | none => return lhs
  | some op => do
    let rhs ← parseSimpleExpr defines r
    compareValues op lhs rhs

def routines : Nat → Routines
  | 0 => ⟨0, fun _ => none, fun _ => none⟩
  | n+1 => ⟨n+1, parseExpr defines (routines n), parseUnary defines (routines n)⟩

/-- `none` only when the fuel runs out. -/
def evalOnFuel (expr : List Char) : Option (Except String Bool) := do
  let (v, s) ← (routines defines (expr.length+2)).parseExpr { src := expr }
  if s.ok = false then return .error s.error
  else do
    let (atEnd, s) ← eof s
    match atEnd, v with
    | false, _ =>
      return .error ("unexpected text after \x7b$if\x7d expression: `" ++
        String.ofList (trim s.src) ++ "`")
    | true, .int _ => return .error "\x7b$if\x7d expression does not produce a boolean value"
    | true, .bool b => return .ok b

end

section
variable {K : Unit → Prop} {n : Nat} {defines : Symbols} {r : Routines}

theorem left_eq (s : State) : left s = s.src.length := rfl

theorem fail_looks (msg : String) : Looks (fail msg) := fun _ => ⟨_, _, rfl, rfl, rfl⟩

theorem failed_safe {msg : String} {v : Value} :
    Runs K n (fun _ => False) (fail msg >>= fun _ => (pure v : IP Value)) :=
  Runs.look (fail_looks msg) fun _ => Runs.pureSafe

theorem skipWs_safe : Runs K n (fun _ => False) skipWs :=
  fun _ _ _ => ⟨(), _, rfl, (List.dropWhile_sublist _).length_le, False.elim⟩

theorem eof_safe : Runs K n (fun _ => False) eof :=
  Runs.bind skipWs_safe fun _ s _ _ => ⟨_, s, rfl, Nat.le_refl _, False.elim⟩

theorem matchChar_takes (c : Char) : Runs K n (· = true) (matchChar c) := by
  refine Runs.bind skipWs_safe fun _ s _ _ => ?_
  cases h : s.src with
  | nil => exact ⟨false, s, by simp, Nat.le_refl _, by simp⟩
  | cons d rest =>
    by_cases hd : d = c
    · refine ⟨true, { s with src := rest }, by simp [hd], ?_, fun _ => ?_⟩ <;> simp [left_eq, h]
    · exact ⟨false, s, by simp [hd], Nat.le_refl _, by simp⟩

theorem matchWord_takes {word : List Char} (hw : word ≠ []) :
    Runs K n (· = true) (matchWord word) := by
  refine Runs.bind skipWs_safe fun _ s _ _ => ?_
  have hpos := List.length_pos_of_ne_nil hw
  dsimp only
  split
  · rename_i h
    simp only [Bool.and_eq_true, decide_eq_true_eq] at h
    have hlen := congrArg List.length h.1
    rw [List.length_map, List.length_take] at hlen
    refine ⟨true, _, rfl, ?_, fun _ => ?_⟩ <;> simp only [left_eq, List.length_drop] <;> omega
  · exact ⟨false, s, rfl, Nat.le_refl _, by simp⟩

theorem afterSign_length_le (src : List Char) : (afterSign src).length ≤ src.length := by
  unfold afterSign
  split <;> simp

theorem readInt_safe : Runs K n (fun _ => False) readInt := by
  refine Runs.bind skipWs_safe fun _ s _ _ => ?_
  dsimp only
  split
  · exact ⟨none, s, rfl, Nat.le_refl _, False.elim⟩
  · exact ⟨_, _, rfl, (List.dropWhile_sublist _).length_le.trans (afterSign_length_le s.src),
      False.elim⟩

theorem readIdent_safe : Runs K n (fun _ => False) readIdent :=
  Runs.bind skipWs_safe fun _ _ _ _ =>
    ⟨_, _, rfl, (List.dropWhile_sublist _).length_le, False.elim⟩

theorem parseDefined_safe : Safe n (parseDefined defines) := by
  refine Runs.takeSafe (matchChar_takes '(') ?_ failed_safe
  refine Runs.bind readIdent_safe fun sym => Runs.ite failed_safe ?_
  exact Runs.takeSafe (matchChar_takes ')') Runs.pureSafe failed_safe

theorem parseSymbol_safe : Safe n (parseSymbol defines) := by
  refine Runs.bind readIdent_safe fun ident => Runs.ite failed_safe ?_
  split
  · split
    · exact Runs.pureSafe
    · exact failed_safe
  · exact failed_safe

structure Routines.Return (r : Routines) (n : Nat) : Prop where
  fuel : n < r.fuel
  parseExpr : Safe n r.parseExpr
  parseUnary : Safe n r.parseUnary

variable (h : r.Return n)
include h

theorem parsePrimary_safe : Safe (n+1) (parsePrimary defines r) := by
  refine Runs.take (matchChar_takes '(') ?_ ?_
  · refine Runs.bind h.parseExpr fun v => Runs.takeSafe (matchChar_takes ')') Runs.pureSafe ?_
    exact Runs.look (fun _ => ⟨_, _, rfl, rfl, rfl⟩) fun _ => Runs.pureSafe
  · refine Runs.take (matchWord_takes (by simp)) parseDefined_safe ?_
    refine Runs.take (matchWord_takes (by simp [wordTrue])) Runs.pureSafe ?_
    refine Runs.take (matchWord_takes (by simp [wordFalse])) Runs.pureSafe ?_
    refine Runs.bind readInt_safe fun v => ?_
    cases v with
    | none => exact parseSymbol_safe
    | some v => exact Runs.pureSafe

theorem parseUnary_safe : Safe (n+1) (parseUnary defines r) := by
  refine Runs.take (matchWord_takes (by simp)) ?_ (parsePrimary_safe h)
  refine Runs.bind h.parseUnary fun v => ?_
  cases v with
  | bool b => exact Runs.pureSafe
  | int i => exact failed_safe

theorem parseChain_safe {word : List Char} (hw : word ≠ []) (apply : Bool → Bool → Bool)
    {operand : IP Value} (ho : Safe (n+1) operand) :
    Safe (n+1) (parseChain r word apply operand) := by
  refine Runs.bind ho fun v => Runs.loop h.fuel (fun v => ?_) v
  have ho' : Safe n operand := ho.mono (fun _ => id) (Nat.le_succ n) fun _ => id
  refine Runs.take (matchWord_takes hw) ?_ Runs.done
  refine Runs.bind ho' fun w => ?_
  cases v with
  | bool a =>
    cases w with
    | bool b => exact Runs.pureSafe
    | int j => exact Runs.look (fail_looks _) fun _ => Runs.pureSafe
  | int i => exact Runs.look (fail_looks _) fun _ => Runs.pureSafe

theorem parseSimpleExpr_safe : Safe (n+1) (parseSimpleExpr defines r) :=
  parseChain_safe h (by simp) or (parseChain_safe h (by simp) and (parseUnary_safe h))

omit h in
theorem matchRelop_safe : Runs K n (fun _ => False) matchRelop := by
  refine Runs.bind skipWs_safe fun _ s _ _ => ?_
  split <;> refine ⟨_, _, rfl, ?_, False.elim⟩ <;> simp_all [left_eq] <;> omega

omit h in
theorem compareValues_safe (op : RelOp) (lhs rhs : Value) :
    Runs K n (fun _ => False) (compareValues op lhs rhs) := by
  unfold compareValues
  split <;> first | exact Runs.pureSafe | exact failed_safe

theorem parseExpr_safe : Safe (n+1) (parseExpr defines r) := by
  refine Runs.bind (parseSimpleExpr_safe h) fun lhs => Runs.bind matchRelop_safe fun op => ?_
  cases op with
  | none => exact Runs.pureSafe
  | some op =>
    exact Runs.bind (parseSimpleExpr_safe h) fun rhs => compareValues_safe op lhs rhs

end

section
variable (defines : Symbols)

theorem routines_return (n : Nat) : (routines defines (n+1)).Return n := by
  induction n with
  | zero => exact ⟨by simp [routines], fun _ _ h => absurd h (Nat.not_lt_zero _),
      fun _ _ h => absurd h (Nat.not_lt_zero _)⟩
  | succ n ih => exact ⟨by simp [routines], parseExpr_safe ih, parseUnary_safe ih⟩

theorem evalOnFuel_isSome (expr : List Char) : (evalOnFuel defines expr).isSome = true := by
  obtain ⟨v, s, hrun, -, -⟩ := (routines_return defines (expr.length+1)).parseExpr
    { src := expr } trivial (by simp [left_eq])
  obtain ⟨atEnd, s', heof, -, -⟩ :=
    (eof_safe (K := fun _ => True) (n := left s+1)) s trivial (Nat.lt_succ_self _)
  simp only [evalOnFuel, hrun, Option.bind_eq_bind, Option.bind_some]
  split
  · rfl
  · simp only [heof, Option.bind_some]
    split <;> rfl

def eval (expr : List Char) : Except String Bool :=
  (evalOnFuel defines expr).get (evalOnFuel_isSome defines expr)

end
end IfExpr
end Tp2cc
