import Tp2cc.Parser.StmtTree
import Tp2cc.Parser.ExprText

set_option autoImplicit false

namespace Tp2cc
open Machine Parsing

def StartsExpr (k : Tok) : Prop :=
  StartsPrimary k ∨ k ∈ [Tok.plus, .minus, .kwNot, .atSign, .atAt]

def EndsStmt (k : Tok) : Prop :=
  k ∈ [Tok.semi, .kwEnd, .kwUntil, .kwElse, .kwOtherwise, .kwExcept, .kwFinally]

def StopsStmts (k : Tok) : Prop := k ∈ [Tok.kwEnd, .kwUntil, .kwExcept, .kwFinally]

instance (k : Tok) : Decidable (StartsExpr k) := inferInstanceAs (Decidable (_ ∨ _))
instance (k : Tok) : Decidable (EndsStmt k) := inferInstanceAs (Decidable (_ ∈ _))
instance (k : Tok) : Decidable (StopsStmts k) := inferInstanceAs (Decidable (_ ∈ _))

theorem EndsStmt.ends {k : Tok} (h : EndsStmt k) :
    EndsExpr k ∧ k ≠ .assign ∧ k ≠ .colon ∧ k ≠ .comma ∧ k ≠ .ident := by
  revert h
  cases k <;> decide

theorem ExprTree.starts : ∀ (t : ExprTree) (level : Nat),
    ∃ l L, t.print level = l :: L ∧ StartsExpr l.kind
  | .ident name, _ => by
    refine ⟨nameLexeme name, [], rfl, ?_⟩
    unfold nameLexeme
    split
    · exact (by decide : StartsExpr .kwSelf)
    · exact (by decide : StartsExpr .ident)
  | .intLit v, _ => ⟨.intLit v, [], rfl, (by decide : StartsExpr .intLit)⟩
  | .realLit text, _ => ⟨.realLit text, [], rfl, (by decide : StartsExpr .realLit)⟩
  | .stringLit v, _ => ⟨.stringLit v, [], rfl, (by decide : StartsExpr .stringLit)⟩
  | .nilLit, _ => ⟨.mark .kwNil, [], rfl, by decide⟩
  | .boolLit b, _ => ⟨.mark (if b then .kwTrue else .kwFalse), [], rfl, by cases b <;> decide⟩
  | .binary op l r, level => by
    obtain ⟨m, L, hm, hstart⟩ := l.starts op.level
    simp only [ExprTree.print]
    split
    · exact ⟨.mark .lParen, _, rfl, by decide⟩
    · rw [hm]
      exact ⟨m, _, rfl, hstart⟩
  | .unary op x, level => by
    simp only [ExprTree.print]
    split
    · exact ⟨.mark .lParen, _, rfl, by decide⟩
    · exact ⟨.mark op.tok, _, rfl, by cases op <;> decide⟩
  | .addrOf double x, level => by
    simp only [ExprTree.print]
    split
    · exact ⟨.mark .lParen, _, rfl, by decide⟩
    · exact ⟨.mark (if double then .atAt else .atSign), _, rfl, by cases double <;> decide⟩
  | .call callee args, _ => by
    obtain ⟨m, L, hm, hstart⟩ := callee.starts 5
    rw [ExprTree.print, hm]
    exact ⟨m, _, rfl, hstart⟩
  | .index base first others, _ => by
    obtain ⟨m, L, hm, hstart⟩ := base.starts 5
    rw [ExprTree.print, hm]
    exact ⟨m, _, rfl, hstart⟩
  | .member base name, _ => by
    obtain ⟨m, L, hm, hstart⟩ := base.starts 5
    rw [ExprTree.print, hm]
    exact ⟨m, _, rfl, hstart⟩
  | .deref x, _ => by
    obtain ⟨m, L, hm, hstart⟩ := x.starts 5
    rw [ExprTree.print, hm]
    exact ⟨m, _, rfl, hstart⟩
  | .setLit elements, _ => ⟨.mark .lBrack, _, rfl, by decide⟩

theorem StmtTree.starts (t : StmtTree) : t.isEmpty ∨
    ∃ l L, t.print = l :: L ∧ ¬StopsStmts l.kind := by
  have expr {e : ExprTree} {K : List Lexeme} :
      ∃ l L, e.print 1 ++ K = l :: L ∧ ¬StopsStmts l.kind := by
    obtain ⟨l, L, hl, hstart⟩ := e.starts 1
    refine ⟨l, L ++ K, by rw [hl]; rfl, ?_⟩
    revert hstart
    generalize l.kind = k
    cases k <;> decide
  cases t with
  | emptyStmt => exact .inl rfl
  | assign target value => exact .inr expr
  | exprStmt e =>
    have h := expr (e := e) (K := [])
    rw [List.append_nil] at h
    exact .inr h
  | labeled label body => exact .inr ⟨_, _, rfl, (by decide : ¬StopsStmts .ident)⟩
  | _ => exact .inr ⟨_, _, rfl, by decide⟩

section
variable {r : Routines} {s s' : PState} {t : SourceToken} {mid tail rest : List SourceToken}
  {k : Tok} {Q : Stmt → Prop} {n : Nat}

def statementAt (r : Routines) : Tok → P Stmt
  | .kwBegin => parseCompoundStatement r
  | .kwIf => parseIf r
  | .kwWhile => parseWhile r
  | .kwRepeat => parseRepeat r
  | .kwFor => parseFor r
  | .kwCase => parseCase r
  | .kwWith => parseWith r
  | .kwGoto => parseGoto
  | .kwAsm => parseAsm r
  | .kwTry => parseTry r
  | .kwRaise => parseRaise r
  | .semi | .kwEnd | .kwUntil | .kwElse => pure .emptyStmt
  | _ => parseLabeledOrSimple r

theorem parseStatement_eq (r : Routines) : parseStatement r = (do
    if ← checkPeek .ident [.colon] then parseLabeled r
    else if ← checkPeek .intLit [.colon] then parseLabeled r
    else statementAt r (← curKind)) := rfl

theorem checkPeek_no {us : List Tok} (h : s.cur.kind ≠ k) : checkPeek k us s = some (false, s) := by
  rw [checkPeek, if_neg h]

theorem checkPeek_at {us : List Tok} (h : s.cur.kind = k) :
    checkPeek k us s = some (decide (s.lookahead.kind ∈ us), { s with havePeek := true }) := by
  rw [checkPeek, if_pos h]

theorem parseStatement_at (hi : s.cur.kind ≠ .ident) (hl : s.cur.kind ≠ .intLit) :
    parseStatement r s = statementAt r s.cur.kind s := by
  rw [parseStatement_eq, bind_of (checkPeek_no hi), if_neg Bool.false_ne_true,
    bind_of (checkPeek_no hl), if_neg Bool.false_ne_true, bind_of curKind_gives]

theorem gives_statement (ht : t.1.lexeme = .mark k) (hi : k ≠ .ident) (hl : k ≠ .intLit)
    (h : Gives (statementAt r k) (s.after (t :: tail)) Q s') :
    Gives (parseStatement r) (s.after (t :: tail)) Q s' := by
  have hk : (s.after (t :: tail)).cur.kind = k := by rw [after_cur, kind_of_mark ht]
  unfold Gives
  rw [parseStatement_at (hk ▸ hi) (hk ▸ hl), hk]
  exact h

theorem parseStatement_simple (hstart : StartsExpr s.cur.kind)
    (hcolon : s.cur.kind = .ident ∨ s.cur.kind = .intLit → s.lookahead.kind ≠ .colon) :
    ∃ b, parseStatement r s = parseLabeledOrSimple r { s with havePeek := b } := by
  have peeked {b : Bool} : ({ s with havePeek := b } : PState).cur = s.cur := rfl
  by_cases hi : s.cur.kind = .ident
  · refine ⟨true, ?_⟩
    rw [parseStatement_eq, bind_of (checkPeek_at hi)]
    simp only [List.mem_singleton, hcolon (.inl hi), decide_false, Bool.false_eq_true, if_false]
    rw [bind_of (checkPeek_no (by rw [peeked, hi]; decide)), if_neg Bool.false_ne_true,
      bind_of curKind_gives, peeked, hi]
    rfl
  · by_cases hl : s.cur.kind = .intLit
    · refine ⟨true, ?_⟩
      rw [parseStatement_eq, bind_of (checkPeek_no hi), if_neg Bool.false_ne_true,
        bind_of (checkPeek_at hl)]
      simp only [List.mem_singleton, hcolon (.inr hl), decide_false, Bool.false_eq_true, if_false]
      rw [bind_of curKind_gives, peeked, hl]
      rfl
    · refine ⟨s.havePeek, ?_⟩
      rw [parseStatement_at hi hl]
      have hat : statementAt r s.cur.kind = parseLabeledOrSimple r := by
        revert hstart
        generalize s.cur.kind = k
        cases k <;> first | exact fun _ => rfl | exact fun h => absurd h (by decide)
      rw [hat]

/-- In the text of an expression no `:` follows the first name: the parser would stop there. -/
theorem lookahead_of_text {e : ExprTree} (hs : Spelled (e.print 1) s rest)
    (hk : EndsExpr (s.after rest).cur.kind) (hc : (s.after rest).cur.kind ≠ .colon)
    (hname : s.cur.kind = .ident ∨ s.cur.kind = .intLit) : s.lookahead.kind ≠ .colon := by
  intro hcolon
  obtain ⟨u, tail, htoks⟩ := List.exists_cons_of_length_pos (toks_pos (s := s) (by
    rcases hname with h | h <;> simp [h]))
  cases tail with
  | nil => simp [PState.lookahead, htoks, PState.eofToken] at hcolon
  | cons v tail =>
    simp only [PState.lookahead, htoks] at hcolon
    rw [cur_of htoks] at hname
    obtain ⟨x, hx⟩ : ∃ x, u.1.lexeme.leaf = some x := by
      rcases hname with h | h <;> simp [Token.lexeme, h, Lexeme.leaf]
    have hname : Spelled [u.1.lexeme] s (v :: tail) := ⟨[u], htoks, rfl⟩
    obtain ⟨a, ha, -⟩ := (PrimaryText.leaf hx).factor.phrase_reads.gives s.toks.length s (v :: tail)
      hname (Nat.lt_succ_self _) (by rw [after_cur, hcolon]; decide)
    obtain ⟨b, hb, -⟩ := e.reads.expr.gives s.toks.length s rest hs (Nat.lt_succ_self _) hk
    rw [ha] at hb
    simp only [Option.some.injEq, Prod.mk.injEq, PState.after, PState.mk.injEq] at hb
    rw [← hb.2.1] at hc
    exact hc hcolon

end
end Tp2cc
