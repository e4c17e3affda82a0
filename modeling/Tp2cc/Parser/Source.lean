import Tp2cc.Parser.StmtRoundTrip
import Tp2cc.Lexer.Tokens
import Tp2cc.Lexer.Writing

set_option autoImplicit false

namespace Tp2cc
open Machine Parsing

def PState.ofTokens (ts : List SourceToken) (l : Lexer) : PState :=
  { toks := ts, eofModes := l.modes }

def assignment : StmtTree := .assign (.ident "a") (.intLit 1)

def assignmentSource : List Char := ['a', ':', '=', '1', ';']

theorem Writes.front {l : Lexeme} {L : List Lexeme} {word rest : List Char}
    (hword : Spells rest l word) (hrest : Writes L rest) : Writes (l :: L) (word ++ rest) :=
  .cons .nil hword hrest

theorem assignmentSource_writes : Writes (assignment.print ++ [.mark .semi]) assignmentSource := by
  have hsemi : Spells [] (.mark .semi) [';'] := .single rfl (by simp) (by simp) (by simp)
  have hdigit : ∀ c ∈ [';'].head?, c.isDigit = false := by
    intro c hc
    cases hc
    rfl
  have hone : Spells [';'] (.intLit 1) ['1'] :=
    .integer ⟨.decimal, ['1'], by simp, List.all_eq_true.mp rfl⟩ (by decide)
      ⟨hdigit, by simp, by simp⟩
  have hassign : Spells ['1', ';'] (.mark .assign) [':', '='] := .pair rfl
  have hcont : ∀ c ∈ [':', '=', '1', ';'].head?, isIdentCont c = false := by
    intro c hc
    cases hc
    rfl
  have hname : Spells [':', '=', '1', ';'] (wordToken (lower ['a'])).lexeme ['a'] :=
    .word rfl (by simp) hcont
  exact .front hname (.front hassign (.front hone (.front hsemi (.nil .nil))))

end Tp2cc
