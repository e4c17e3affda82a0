import Tp2cc.Parser.StmtBlocks
import Tp2cc.Parser.ExprRoundTrip

set_option autoImplicit false

namespace Tp2cc
open Machine Parsing

def readings : Readings where
  expr := ExprTree.reading
  exprs := IndexTrees.readings
  elements := ElementTrees.readings

def originals : Readings where
  expr := ExprTree.expr
  exprs := IndexTrees.exprs
  elements := ElementTrees.exprs

theorem StopsStmts.stmt {k : Tok} (h : StopsStmts k) : EndsStmt k := by
  revert h
  cases k <;> decide

theorem HandlerTrees.starts (handlers : HandlerTrees) :
    ∃ L, handlers.print = .ident "on" :: L := by
  cases handlers with
  | last => exact ⟨_, rfl⟩
  | cons => exact ⟨_, rfl⟩

mutual

theorem StmtTree.reads : ∀ (t : StmtTree) {k : Tok}, EndsStmt k → t.fits k →
    ReadsStmt k (t.stmt readings) t.print
  | .compound body, _, _, h => .compound (body.reads (by decide) h).stmts
  | .assign _ _, _, hk, _ => .assign hk
  | .exprStmt _, _, hk, _ => .exprStmt hk
  | .ifThen _ t, _, hk, h => by
    simp only [StmtTree.fits, Bool.and_eq_true, decide_eq_true_eq] at h
    exact .ifThen (t.reads hk h.2) h.1
  | .ifElse _ t e, _, hk, h => by
    simp only [StmtTree.fits, Bool.and_eq_true] at h
    exact .ifElse (t.reads (by decide) h.1) (e.reads hk h.2)
  | .whileStmt _ body, _, hk, h => .whileStmt (body.reads hk h)
  | .repeatStmt body _, _, hk, h => .repeatStmt (body.reads (by decide) h).stmts hk
  | .forTo _ _ _ _ body, _, hk, h => .forTo (body.reads hk h)
  | .forIn _ _ body, _, hk, h => .forIn (body.reads hk h)
  | .caseOf _ arms, _, _, h => .caseOf (arms.reads h)
  | .caseElse _ arms _ e, _, _, h => by
    simp only [StmtTree.fits, Bool.and_eq_true] at h
    exact .caseElse (arms.reads h.1) (e.reads (by decide) h.2).stmts
  | .withStmt _ _ body, _, hk, h => .withStmt (body.reads hk h)
  | .goto _, _, _, _ => .goto
  | .labeled _ body, _, hk, h => .labeled (body.reads hk h)
  | .emptyStmt, _, _, h => .empty h
  | .asmStmt _, _, _, h => .asmStmt h
  | .tryFinally body finallyBody, _, _, h => by
    simp only [StmtTree.fits, Bool.and_eq_true] at h
    exact .tryFinally (body.reads (by decide) h.1).stmts (finallyBody.reads (by decide) h.2).stmts
  | .tryExcept body e, _, _, h => by
    simp only [StmtTree.fits, Bool.and_eq_true, Bool.not_eq_true', startsOn,
      decide_eq_false_iff_not] at h
    exact .tryExcept (body.reads (by decide) h.1.1).stmts (e.reads (by decide) h.1.2).stmts h.2
  | .tryOn body handlers, _, _, h => by
    simp only [StmtTree.fits, Bool.and_eq_true] at h
    exact .tryOn (body.reads (by decide) h.1).stmts (handlers.reads h.2) handlers.starts
  | .tryOnElse body handlers e, _, _, h => by
    simp only [StmtTree.fits, Bool.and_eq_true] at h
    exact .tryOnElse (body.reads (by decide) h.1.1).stmts (handlers.reads h.1.2) handlers.starts
      (e.reads (by decide) h.2).stmts
  | .reraise, _, _, h => .reraise h
  | .raise _, _, hk, _ => .raise hk

theorem StmtTrees.reads : ∀ (ts : StmtTrees) {k : Tok}, StopsStmts k → ts.fits k →
    ReadsRest k (ts.stmts readings) (withSemis ts.prints)
  | .nil, _, _, _ => .nil
  | .cons s .nil, _, hk, h => by
    simp only [StmtTrees.fits, Bool.and_eq_true, Bool.not_eq_true'] at h
    rw [StmtTrees.prints, StmtTrees.prints, withSemis, List.intercalate_singleton]
    exact .last (s.reads (StopsStmts.stmt hk) h.2) (by simp [h.1]) hk
  | .cons s (.cons s' rest), _, hk, h => by
    simp only [StmtTrees.fits, Bool.and_eq_true] at h
    rw [StmtTrees.prints, StmtTrees.prints, withSemis_cons, ← StmtTrees.prints]
    exact .cons (s.reads (by decide) h.1) ((StmtTrees.cons s' rest).reads hk h.2)

theorem ArmTrees.reads : ∀ (arms : ArmTrees), arms.fits → ReadsArms (arms.arms readings) arms.print
  | .nil, _ => .nil
  | .cons labels body rest, h => by
    simp only [ArmTrees.fits, Bool.and_eq_true, Bool.not_eq_true'] at h
    exact .cons (by simp [h.1.1]) (body.reads (by decide) h.1.2) (rest.reads h.2)

theorem HandlerTrees.reads : ∀ (handlers : HandlerTrees), handlers.fits →
    ReadsHandlers (handlers.handlers readings) handlers.print
  | .last _ _ body, h => .cons (body.reads (by decide) h) .nil
  | .cons _ _ body rest, h => by
    simp only [HandlerTrees.fits, Bool.and_eq_true] at h
    exact .cons (body.reads (by decide) h.1) (rest.reads h.2)

end

/-! No `as` expression is an operand that a looser operator would take apart. -/
section

mutual

def StmtTree.asSafe : StmtTree → Bool
  | .compound body => body.asSafe
  | .assign target value => target.asSafe && value.asSafe
  | .exprStmt e => e.asSafe
  | .ifThen cond t => cond.asSafe && t.asSafe
  | .ifElse cond t e => cond.asSafe && t.asSafe && e.asSafe
  | .whileStmt cond body => cond.asSafe && body.asSafe
  | .repeatStmt body cond => body.asSafe && cond.asSafe
  | .forTo _ start stop _ body => start.asSafe && stop.asSafe && body.asSafe
  | .forIn _ inExpr body => inExpr.asSafe && body.asSafe
  | .caseOf selector arms => selector.asSafe && arms.asSafe
  | .caseElse selector arms _ e => selector.asSafe && arms.asSafe && e.asSafe
  | .withStmt first others body => first.asSafe && others.asSafe && body.asSafe
  | .goto _ | .emptyStmt | .asmStmt _ | .reraise => true
  | .labeled _ body => body.asSafe
  | .tryFinally body finallyBody => body.asSafe && finallyBody.asSafe
  | .tryExcept body e => body.asSafe && e.asSafe
  | .tryOn body handlers => body.asSafe && handlers.asSafe
  | .tryOnElse body handlers e => body.asSafe && handlers.asSafe && e.asSafe
  | .raise value => value.asSafe

def StmtTrees.asSafe : StmtTrees → Bool
  | .nil => true
  | .cons s rest => s.asSafe && rest.asSafe

def ArmTrees.asSafe : ArmTrees → Bool
  | .nil => true
  | .cons labels body rest => labels.asSafe && body.asSafe && rest.asSafe

def HandlerTrees.asSafe : HandlerTrees → Bool
  | .last _ _ body => body.asSafe
  | .cons _ _ body rest => body.asSafe && rest.asSafe

end

mutual

theorem StmtTree.stmt_iff : ∀ t : StmtTree, t.stmt readings = t.stmt originals ↔ t.asSafe
  | .compound body => by
    simp [StmtTree.stmt, StmtTree.asSafe, ← body.stmts_iff]
  | .assign target value => by
    simp [StmtTree.stmt, StmtTree.asSafe, readings, originals, ← target.reading_iff,
      ← value.reading_iff]
  | .exprStmt e => by
    simp [StmtTree.stmt, StmtTree.asSafe, readings, originals, ← e.reading_iff]
  | .ifThen cond t => by
    simp only [StmtTree.stmt, StmtTree.asSafe, Bool.and_eq_true, ← cond.reading_iff, ← t.stmt_iff,
      Stmt.ifStmt.injEq, and_true]
    rfl
  | .ifElse cond t e => by
    simp only [StmtTree.stmt, StmtTree.asSafe, Bool.and_eq_true, ← cond.reading_iff, ← t.stmt_iff,
      ← e.stmt_iff, Stmt.ifStmt.injEq, Option.some.injEq, and_assoc]
    rfl
  | .whileStmt cond body => by
    simp only [StmtTree.stmt, StmtTree.asSafe, Bool.and_eq_true, ← cond.reading_iff,
      ← body.stmt_iff, Stmt.whileStmt.injEq]
    rfl
  | .repeatStmt body cond => by
    simp only [StmtTree.stmt, StmtTree.asSafe, Bool.and_eq_true, ← cond.reading_iff,
      ← body.stmts_iff, Stmt.repeatStmt.injEq]
    rfl
  | .forTo _ start stop _ body => by
    simp only [StmtTree.stmt, StmtTree.asSafe, Bool.and_eq_true, ← start.reading_iff,
      ← stop.reading_iff, ← body.stmt_iff, Stmt.forTo.injEq, true_and, and_assoc]
    rfl
  | .forIn _ inExpr body => by
    simp only [StmtTree.stmt, StmtTree.asSafe, Bool.and_eq_true, ← inExpr.reading_iff,
      ← body.stmt_iff, Stmt.forIn.injEq, true_and]
    rfl
  | .caseOf selector arms => by
    simp only [StmtTree.stmt, StmtTree.asSafe, Bool.and_eq_true, ← selector.reading_iff,
      ← arms.arms_iff, Stmt.caseStmt.injEq, and_true]
    rfl
  | .caseElse selector arms _ e => by
    simp only [StmtTree.stmt, StmtTree.asSafe, Bool.and_eq_true, ← selector.reading_iff,
      ← arms.arms_iff, ← e.stmts_iff, Stmt.caseStmt.injEq, Option.some.injEq, Stmt.compound.injEq,
      and_assoc]
    rfl
  | .withStmt first others body => by
    simp only [StmtTree.stmt, StmtTree.asSafe, Bool.and_eq_true, ← first.reading_iff,
      ← others.readings_iff, ← body.stmt_iff, Stmt.withStmt.injEq, List.cons.injEq]
    rfl
  | .goto _ | .emptyStmt | .asmStmt _ | .reraise => ⟨fun _ => rfl, fun _ => rfl⟩
  | .labeled _ body => by
    simp [StmtTree.stmt, StmtTree.asSafe, ← body.stmt_iff]
  | .tryFinally body finallyBody => by
    simp [StmtTree.stmt, StmtTree.asSafe, ← body.stmts_iff, ← finallyBody.stmts_iff]
  | .tryExcept body e => by
    simp [StmtTree.stmt, StmtTree.asSafe, ← body.stmts_iff, ← e.stmts_iff]
  | .tryOn body handlers => by
    simp [StmtTree.stmt, StmtTree.asSafe, ← body.stmts_iff, ← handlers.handlers_iff]
  | .tryOnElse body handlers e => by
    simp [StmtTree.stmt, StmtTree.asSafe, ← body.stmts_iff, ← handlers.handlers_iff,
      ← e.stmts_iff, and_assoc]
  | .raise value => by
    simp [StmtTree.stmt, StmtTree.asSafe, readings, originals, ← value.reading_iff]

theorem StmtTrees.stmts_iff : ∀ ts : StmtTrees, ts.stmts readings = ts.stmts originals ↔ ts.asSafe
  | .nil => ⟨fun _ => rfl, fun _ => rfl⟩
  | .cons s rest => by
    simp [StmtTrees.stmts, StmtTrees.asSafe, ← s.stmt_iff, ← rest.stmts_iff]

theorem ArmTrees.arms_iff : ∀ arms : ArmTrees, arms.arms readings = arms.arms originals ↔ arms.asSafe
  | .nil => ⟨fun _ => rfl, fun _ => rfl⟩
  | .cons labels body rest => by
    simp only [ArmTrees.arms, ArmTrees.asSafe, Bool.and_eq_true, ← labels.readings_iff,
      ← body.stmt_iff, ← rest.arms_iff, List.cons.injEq, CaseArm.mk.injEq]
    rfl

theorem HandlerTrees.handlers_iff : ∀ handlers : HandlerTrees,
    handlers.handlers readings = handlers.handlers originals ↔ handlers.asSafe
  | .last _ _ body => by
    simp [HandlerTrees.handlers, HandlerTrees.asSafe, ← body.stmt_iff]
  | .cons _ _ body rest => by
    simp [HandlerTrees.handlers, HandlerTrees.asSafe, ← body.stmt_iff, ← rest.handlers_iff]

end
end

theorem after_self {s : PState} (h : s.havePeek = false) : s.after s.toks = s := by
  rw [PState.after, ← h]

/-- The parser consumes the text of a statement and nothing behind it, and returns its reading. -/
theorem parseStatement_gives {t : StmtTree} {s : PState} {rest : List SourceToken} {n : Nat}
    (hs : Spelled t.print s rest) (hn : s.toks.length < n) (hpeek : s.havePeek = false)
    (hk : EndsStmt (s.after rest).cur.kind) (hfits : t.fits (s.after rest).cur.kind) :
    Gives (routines n).parseStatement s (·.unchecked = t.stmt readings) (s.after rest) := by
  obtain ⟨n, rfl⟩ : ∃ n', n = n'+1 := ⟨n-1, by omega⟩
  rw [← after_self hpeek] at hs ⊢
  exact (t.reads hk hfits).gives n s s.toks rest hs hn rfl

theorem returns_iff {t : StmtTree} {s s' : PState} {p : P Stmt}
    (h : Gives p s (·.unchecked = t.stmt readings) s') :
    (∃ x, p s = some (x, s') ∧ x.unchecked = t.stmt originals) ↔ t.asSafe := by
  obtain ⟨x, hrun, hx⟩ := h
  rw [← t.stmt_iff, ← hx]
  constructor
  · intro h
    obtain ⟨y, hrun', hy⟩ := h
    obtain rfl : y = x := by simpa using hrun'.symm.trans hrun
    exact hy
  · intro h
    exact ⟨x, hrun, h⟩

/-- From every stream of tokens that begins with the text of a statement and goes on with a token
that the text fits, the parser returns the statement, leaves the rest and reports no error exactly
where no `as` expression is an operand that a looser operator would take apart. -/
theorem parseStatement_print_iff (t : StmtTree) (s : PState) (rest : List SourceToken) (n : Nat)
    (hs : Spelled t.print s rest) (hn : s.toks.length < n) (hpeek : s.havePeek = false)
    (hk : EndsStmt (s.after rest).cur.kind) (hfits : t.fits (s.after rest).cur.kind) :
    (∃ x, (routines n).parseStatement s = some (x, s.after rest) ∧
      x.unchecked = t.stmt originals) ↔ t.asSafe :=
  returns_iff (parseStatement_gives hs hn hpeek hk hfits)

theorem Tok.kwIf_ne_eof : Tok.kwIf ≠ .eof := Tok.noConfusion
theorem Tok.kwThen_ne_eof : Tok.kwThen ≠ .eof := Tok.noConfusion
theorem Tok.kwElse_ne_eof : Tok.kwElse ≠ .eof := Tok.noConfusion
theorem Tok.semi_ne_eof : Tok.semi ≠ .eof := Tok.noConfusion

def nestedIf : PState :=
  { toks := [⟨{ kind := .kwIf }, Tok.kwIf_ne_eof⟩, identToken "a",
      ⟨{ kind := .kwThen }, Tok.kwThen_ne_eof⟩, ⟨{ kind := .kwIf }, Tok.kwIf_ne_eof⟩,
      identToken "b", ⟨{ kind := .kwThen }, Tok.kwThen_ne_eof⟩, identToken "c",
      ⟨{ kind := .kwElse }, Tok.kwElse_ne_eof⟩, identToken "d", ⟨{ kind := .semi }, Tok.semi_ne_eof⟩] }

def nestedIfTree : StmtTree :=
  .ifThen (.ident "a") (.ifElse (.ident "b") (.exprStmt (.ident "c")) (.exprStmt (.ident "d")))

theorem parseStatement_print_iff_nestedIf :
    (∃ x, (routines 11).parseStatement nestedIf = some (x, nestedIf.after
      [⟨{ kind := .semi }, Tok.semi_ne_eof⟩]) ∧ x.unchecked = nestedIfTree.stmt originals) ↔
      nestedIfTree.asSafe :=
  parseStatement_print_iff nestedIfTree nestedIf [⟨{ kind := .semi }, Tok.semi_ne_eof⟩] 11
    ⟨nestedIf.toks.take 9, rfl, by decide⟩ (by decide) rfl (by decide) (by decide)

/-- Before an `else` a statement that ends with an `if` has no text: the parser takes the `else`
for that of the inner `if`. -/
theorem dangling_else (c d : ExprTree) (t e : StmtTree) :
    (StmtTree.ifElse c (.ifThen d t) e).print = (StmtTree.ifThen c (.ifElse d t e)).print := by
  simp [StmtTree.print]

end Tp2cc
