import Tp2cc.Parser.StmtText

set_option autoImplicit false

namespace Tp2cc
open Machine Parsing

/-- Where a token of the kind follows the text, the parser reads the statement from it. -/
structure ReadsStmt (k : Tok) (x : Stmt) (L : List Lexeme) : Prop where
  gives : ∀ n s mid rest, Spelled L (PState.after s mid) rest → mid.length < n+1 →
    (s.after rest).cur.kind = k →
    Gives (parseStatement (routines n)) (s.after mid) (·.unchecked = x) (s.after rest)

structure ReadsStmts (k : Tok) (xs : List Stmt) (L : List Lexeme) : Prop where
  gives : ∀ n s mid rest stops, k ∈ stops → (∀ t ∈ stops, StopsStmts t) →
    Spelled L (PState.after s mid) rest → mid.length < n → (s.after rest).cur.kind = k →
    Gives (parseStatementsUntil (routines n) stops) (s.after mid)
      (fun ys => uncheckedStmts ys = xs) (s.after rest)

section
variable {α β γ : Type} {n : Nat} {s s' : PState} {t : SourceToken} {mid tail rest : List SourceToken}
  {k : Tok} {ctx : String} {l : Lexeme} {L T : List Lexeme} {Q : β → Prop} {e : ExprTree} {x : Stmt}
  {xs : List Stmt} {name : String}

/-! What comes after a part of a text has fewer tokens before it. -/

theorem Spelled.tail_le (hs : Spelled L (s.after mid) rest) : rest.length ≤ mid.length := by
  have := hs.length
  simp only [after_toks] at this
  omega

theorem Spelled.step (hs : Spelled (l :: L) (s.after mid) rest) :
    ∃ t tail, mid = t :: tail ∧ t.1.lexeme = l ∧ Spelled L (s.after tail) rest ∧
      tail.length < mid.length := by
  obtain ⟨t, tail, hmid, ht, hs⟩ := hs.cons
  cases hmid
  exact ⟨t, tail, rfl, ht, hs, Nat.lt_succ_self _⟩

theorem Spelled.split (hs : Spelled (T ++ L) (s.after mid) rest) :
    ∃ tail, tail.length ≤ mid.length ∧ Spelled T (s.after mid) tail ∧ Spelled L (s.after tail) rest := by
  obtain ⟨tail, hT, hL⟩ := hs.append
  exact ⟨tail, hT.tail_le, hT, hL⟩

theorem Spelled.expect {f : P β} (hs : Spelled (.mark k :: L) (s.after mid) rest)
    (h : ∀ tail, tail.length < mid.length → Spelled L (s.after tail) rest →
      Gives f (s.after tail) Q s') :
    Gives (expect k ctx >>= fun _ => f) (s.after mid) Q s' := by
  obtain ⟨t, tail, rfl, ht, hs, hlt⟩ := hs.step
  exact Gives.after (expect_yes rfl (kind_of_mark ht)) (h tail hlt hs)

theorem Spelled.acceptYes {f g : P β} (hs : Spelled (.mark k :: L) (s.after mid) rest)
    (h : ∀ tail, tail.length < mid.length → Spelled L (s.after tail) rest →
      Gives f (s.after tail) Q s') :
    Gives (accept k >>= fun b => if b = true then f else g) (s.after mid) Q s' := by
  obtain ⟨t, tail, rfl, ht, hs, hlt⟩ := hs.step
  unfold Gives
  rw [bind_accept_yes rfl (kind_of_mark ht)]
  exact h tail hlt hs

theorem Spelled.acceptNo {f g : P β} (hs : Spelled (l :: L) (s.after mid) rest) (hl : l.kind ≠ k)
    (h : Gives g (s.after mid) Q s') :
    Gives (accept k >>= fun b => if b = true then f else g) (s.after mid) Q s' := by
  unfold Gives
  rw [bind_accept_no (by rw [hs.kind]; exact hl)]
  exact h

theorem Spelled.ident {f : String → P β} (hs : Spelled (.ident name :: L) (s.after mid) rest)
    (h : ∀ tail, tail.length < mid.length → Spelled L (s.after tail) rest →
      Gives (f name) (s.after tail) Q s') :
    Gives (consumeIdent ctx >>= f) (s.after mid) Q s' := by
  obtain ⟨t, tail, rfl, ht, hs, hlt⟩ := hs.step
  refine Gives.after (consumeIdent_gives rfl (kind_of_ident ht)) ?_
  rw [text_of_ident ht]
  exact h tail hlt hs

theorem Spelled.expr {f : Expr → P β} (hs : Spelled (e.print 1 ++ l :: L) (s.after mid) rest)
    (hn : mid.length < n) (hl : EndsExpr l.kind)
    (h : ∀ tail e', tail.length ≤ mid.length → Spelled (l :: L) (s.after tail) rest →
      e'.unchecked = e.reading → Gives (f e') (s.after tail) Q s') :
    Gives ((routines n).parseExpr >>= f) (s.after mid) Q s' := by
  obtain ⟨tail, he, hs⟩ := hs.append
  exact Gives.bind (inner_gives e.reads.expr he hn (hs.kind ▸ hl)) fun e' he' =>
    h tail e' he.tail_le hs he'

theorem Spelled.lastExpr {f : Expr → P β} (hs : Spelled (e.print 1) (s.after mid) rest)
    (hn : mid.length < n) (hk : EndsExpr (s.after rest).cur.kind)
    (h : ∀ e', e'.unchecked = e.reading → Gives (f e') (s.after rest) Q s') :
    Gives ((routines n).parseExpr >>= f) (s.after mid) Q s' :=
  Gives.bind (inner_gives e.reads.expr hs hn hk) h

theorem Spelled.items {item : Routines → P α} {f : α → γ} {ends : Tok → Prop} {y : γ}
    {ys : List γ} {Ts : List (List Lexeme)} {g : List α → P β}
    (hs : Spelled (withCommas (T :: Ts) ++ .mark k :: L) (s.after mid) rest)
    (hy : Reads 0 ends item f y T) (hys : List.Forall₂ (Reads 0 ends item f) ys Ts)
    (hcomma : ends .comma) (hk : ends k) (hne : k ≠ .comma) (hn : mid.length < n)
    (h : ∀ tail zs, tail.length ≤ mid.length → Spelled (.mark k :: L) (s.after tail) rest →
      zs.map f = y :: ys → Gives (g zs) (s.after tail) Q s') :
    Gives (item (routines n) >>= fun z => moreAfterCommas (routines n) (item (routines n)) [z] >>= g)
      (s.after mid) Q s' := by
  obtain ⟨tail, hall, hs⟩ := hs.append
  have hkind : (s.after tail).cur.kind = k := hs.kind
  rw [withCommas_cons] at hall
  obtain ⟨mid', hfirst, hmore⟩ := hall.append
  have hle := hfirst.tail_le
  refine Gives.bind (hy.gives n (s.after mid) mid' hfirst hn ?_) fun z hz => ?_
  · exact @ends_between _ _ s tail hcomma (hkind ▸ hk) _ hmore
  · refine Gives.bind (moreAfterCommas_gives hcomma (hkind ▸ hk) (hkind ▸ hne) hys (routines n) [z]
      hmore (by omega) (by rw [routines_fuel]; omega)) fun zs hzs => ?_
    exact h tail zs hall.tail_le hs (by rw [hzs]; simp [hz])

theorem Spelled.stmt {f : Stmt → P β} (hs : Spelled (T ++ .mark k :: L) (s.after mid) rest)
    (hT : ReadsStmt k x T) (hn : mid.length < n)
    (h : ∀ tail x', tail.length ≤ mid.length → Spelled (.mark k :: L) (s.after tail) rest →
      x'.unchecked = x → Gives (f x') (s.after tail) Q s') :
    Gives ((routines n).parseStatement >>= f) (s.after mid) Q s' := by
  obtain ⟨tail, hx, hs⟩ := hs.append
  cases n with
  | zero => exact absurd hn (Nat.not_lt_zero _)
  | succ n => exact Gives.bind (hT.gives n s mid _ hx hn hs.kind) fun x' hx' => h tail x' hx.tail_le hs hx'

theorem Spelled.lastStmt {f : Stmt → P β} (hs : Spelled T (s.after mid) rest) (hT : ReadsStmt k x T)
    (hn : mid.length < n) (hk : (s.after rest).cur.kind = k)
    (h : ∀ x', x'.unchecked = x → Gives (f x') (s.after rest) Q s') :
    Gives ((routines n).parseStatement >>= f) (s.after mid) Q s' := by
  cases n with
  | zero => exact absurd hn (Nat.not_lt_zero _)
  | succ n => exact Gives.bind (hT.gives n s mid rest hs hn hk) h

theorem Spelled.stmts {f : List Stmt → P β} {stops : List Tok}
    (hs : Spelled (T ++ .mark k :: L) (s.after mid) rest) (hT : ReadsStmts k xs T)
    (hl : k ∈ stops) (hstops : ∀ t ∈ stops, StopsStmts t) (hn : mid.length < n)
    (h : ∀ tail xs', tail.length ≤ mid.length → Spelled (.mark k :: L) (s.after tail) rest →
      uncheckedStmts xs' = xs → Gives (f xs') (s.after tail) Q s') :
    Gives (parseStatementsUntil (routines n) stops >>= f) (s.after mid) Q s' := by
  obtain ⟨tail, hx, hs⟩ := hs.append
  exact Gives.bind (hT.gives n s mid _ stops hl hstops hx hn hs.kind) fun xs' hxs' => h tail xs' hx.tail_le hs hxs'

theorem ReadsStmt.of_mark (hi : k ≠ .ident) (hl : k ≠ .intLit) {k' : Tok}
    (h : ∀ {n : Nat} {s : PState} {mid rest : List SourceToken},
      Spelled (.mark k :: L) (s.after mid) rest → mid.length < n+1 → (s.after rest).cur.kind = k' →
      Gives (statementAt (routines n) k) (s.after mid) (·.unchecked = x) (s.after rest)) :
    ReadsStmt k' x (.mark k :: L) := by
  refine ⟨fun n s mid rest hs hn hk => ?_⟩
  have hst := h hs hn hk
  obtain ⟨t, tail, rfl, ht, -, -⟩ := hs.step
  exact gives_statement ht hi hl hst

end

section
variable {k : Tok} {x y : Stmt} {xs ys : List Stmt} {T U : List Lexeme} {e e' : ExprTree}
  {name : String}

theorem ReadsStmt.compound (h : ReadsStmts .kwEnd xs T) :
    ReadsStmt k (.compound xs) (.mark .kwBegin :: T ++ [.mark .kwEnd]) := by
  refine .of_mark (by decide) (by decide) fun hs hn hk => ?_
  refine hs.expect fun tail hlt hs => ?_
  refine hs.stmts h (by decide) (by decide) (by omega) fun tail' xs' hle hs hxs => ?_
  refine hs.expect fun tail'' _ hs => ?_
  cases hs.nil
  exact .pure (by rw [Stmt.unchecked, hxs])

theorem ReadsStmt.ifThen (h : ReadsStmt k x T) (helse : k ≠ .kwElse) :
    ReadsStmt k (.ifStmt e.reading x none) (.mark .kwIf :: e.print 1 ++ .mark .kwThen :: T) := by
  refine .of_mark (by decide) (by decide) fun hs hn hrest => ?_
  refine hs.expect fun tail hlt hs => ?_
  refine hs.expr (by omega) (by decide) fun tail' cond hle hs hcond => ?_
  refine hs.expect fun tail'' hlt' hs => ?_
  refine hs.lastStmt h (by omega) hrest fun x' hx => ?_
  refine Gives.after (a := none) ?_ (.pure ?_)
  · exact (bind_accept_no (hrest ▸ helse)).trans rfl
  · rw [Stmt.unchecked, hcond, hx, uncheckedBranch]

theorem ReadsStmt.ifElse (h : ReadsStmt .kwElse x T) (h' : ReadsStmt k y U) :
    ReadsStmt k (.ifStmt e.reading x (some y))
      (.mark .kwIf :: e.print 1 ++ .mark .kwThen :: (T ++ .mark .kwElse :: U)) := by
  refine .of_mark (by decide) (by decide) fun hs hn hrest => ?_
  refine hs.expect fun tail hlt hs => ?_
  refine hs.expr (by omega) (by decide) fun tail' cond hle hs hcond => ?_
  refine hs.expect fun tail'' hlt' hs => ?_
  refine hs.stmt h (by omega) fun tail₃ x' hle' hs hx => ?_
  refine Gives.bind (Q := fun b => uncheckedBranch b = some y) ?_ fun b hb => .pure ?_
  · refine hs.acceptYes fun tail₄ hlt'' hs => ?_
    refine hs.lastStmt h' (by omega) hrest fun y' hy => .pure ?_
    rw [uncheckedBranch, hy]
  · rw [Stmt.unchecked, hcond, hx, hb]

theorem ReadsStmt.whileStmt (h : ReadsStmt k x T) :
    ReadsStmt k (.whileStmt e.reading x) (.mark .kwWhile :: e.print 1 ++ .mark .kwDo :: T) := by
  refine .of_mark (by decide) (by decide) fun hs hn hrest => ?_
  refine hs.expect fun tail hlt hs => ?_
  refine hs.expr (by omega) (by decide) fun tail' cond hle hs hcond => ?_
  refine hs.expect fun tail'' hlt' hs => ?_
  refine hs.lastStmt h (by omega) hrest fun x' hx => .pure ?_
  rw [Stmt.unchecked, hcond, hx]

theorem ReadsStmt.repeatStmt (h : ReadsStmts .kwUntil xs T) (hk : EndsStmt k) :
    ReadsStmt k (.repeatStmt xs e.reading)
      (.mark .kwRepeat :: T ++ .mark .kwUntil :: e.print 1) := by
  refine .of_mark (by decide) (by decide) fun hs hn hrest => ?_
  refine hs.expect fun tail hlt hs => ?_
  refine hs.stmts h (by decide) (by decide) (by omega) fun tail' xs' hle hs hxs => ?_
  refine hs.expect fun tail'' hlt' hs => ?_
  refine hs.lastExpr (by omega) (hrest ▸ hk.ends.1) fun cond hcond => .pure ?_
  rw [Stmt.unchecked, hcond, hxs]

theorem parseForDirection_gives {s : PState} {mid rest : List SourceToken} {L : List Lexeme}
    {downto : Bool} {β : Type} {f : Bool → P β} {Q : β → Prop} {s' : PState}
    (hs : Spelled (.mark (directionTok downto) :: L) (s.after mid) rest)
    (h : ∀ tail, tail.length < mid.length → Spelled L (s.after tail) rest →
      Gives (f downto) (s.after tail) Q s') :
    Gives (parseForDirection >>= f) (s.after mid) Q s' := by
  obtain ⟨t, tail, rfl, ht, hs', hlt⟩ := hs.step
  refine Gives.after ?_ (h tail hlt hs')
  cases downto with
  | false => exact bind_accept_yes rfl (kind_of_mark ht)
  | true =>
    refine (bind_accept_no ?_).trans (bind_accept_yes rfl (kind_of_mark ht))
    rw [hs.kind]
    decide

theorem ReadsStmt.forTo {downto : Bool} (h : ReadsStmt k x T) :
    ReadsStmt k (.forTo name e.reading e'.reading downto x)
      (.mark .kwFor :: .ident name :: .mark .assign :: e.print 1 ++
        .mark (directionTok downto) :: (e'.print 1 ++ .mark .kwDo :: T)) := by
  refine .of_mark (by decide) (by decide) fun hs hn hrest => ?_
  refine hs.expect fun tail hlt hs => ?_
  refine Spelled.ident hs fun tail' hlt' hs => ?_
  refine Spelled.acceptNo hs (by decide) (Spelled.expect hs fun tail'' hlt'' hs => ?_)
  refine hs.expr (by omega) (by cases downto <;> decide) fun tail₃ start hle hs hstart => ?_
  refine parseForDirection_gives hs fun tail₄ hlt₃ hs => ?_
  refine hs.expr (by omega) (by decide) fun tail₅ stop hle' hs hstop => ?_
  refine hs.expect fun tail₆ hlt₄ hs => ?_
  refine hs.lastStmt h (by omega) hrest fun x' hx => .pure ?_
  rw [Stmt.unchecked, hstart, hstop, hx]

theorem ReadsStmt.forIn (h : ReadsStmt k x T) :
    ReadsStmt k (.forIn name e.reading x)
      (.mark .kwFor :: .ident name :: .mark .kwIn :: e.print 1 ++ .mark .kwDo :: T) := by
  refine .of_mark (by decide) (by decide) fun hs hn hrest => ?_
  refine hs.expect fun tail hlt hs => ?_
  refine Spelled.ident hs fun tail' hlt' hs => ?_
  refine Spelled.acceptYes hs fun tail'' hlt'' hs => ?_
  refine hs.expr (by omega) (by decide) fun tail₃ inExpr hle hs hin => ?_
  refine hs.expect fun tail₄ hlt₃ hs => ?_
  refine hs.lastStmt h (by omega) hrest fun x' hx => .pure ?_
  rw [Stmt.unchecked, hin, hx]

theorem ReadsStmt.withStmt {others : IndexTrees} (h : ReadsStmt k x T) :
    ReadsStmt k (.withStmt (e.reading :: others.readings) x)
      (.mark .kwWith :: withCommas (e.print 1 :: others.prints) ++ .mark .kwDo :: T) := by
  refine .of_mark (by decide) (by decide) fun hs hn hrest => ?_
  refine hs.expect fun tail hlt hs => ?_
  refine hs.items e.reads.expr.inner others.reads (by decide) (by decide) (by decide) (by omega)
    fun tail' es hle hs hes => ?_
  refine hs.expect fun tail'' hlt' hs => ?_
  refine hs.lastStmt h (by omega) hrest fun x' hx => .pure ?_
  rw [Stmt.unchecked, uncheckedList_eq, hes, hx]

theorem ReadsStmt.goto : ReadsStmt k (.goto name) [.mark .kwGoto, .ident name] := by
  refine .of_mark (by decide) (by decide) fun hs hn hrest => ?_
  obtain ⟨t, tail, rfl, ht, hs, -⟩ := hs.step
  obtain ⟨u, tail', rfl, hu, hs, -⟩ := hs.step
  cases hs.nil
  refine Gives.after (advance_gives rfl) (Gives.after cur_gives ?_)
  have hkind : u.1.kind = .ident := kind_of_ident hu
  rw [after_after, after_cur, if_pos (.inl hkind), text_of_ident hu]
  exact Gives.after (advance_gives rfl) (.pure rfl)

theorem ReadsStmt.labeled (h : ReadsStmt k x T) :
    ReadsStmt k (.labeled name x) (.ident name :: .mark .colon :: T) := by
  refine ⟨fun n s mid rest hs hn hk => ?_⟩
  obtain ⟨t, tail, rfl, ht, hs, hlt⟩ := hs.step
  obtain ⟨u, tail', rfl, hu, hs, hlt'⟩ := hs.step
  have hpeek : checkPeek .ident [.colon] (s.after (t :: u :: tail')) =
      some (true, { s.after (t :: u :: tail') with havePeek := true }) := by
    rw [checkPeek_at (by rw [after_cur, kind_of_ident ht])]
    simp [PState.lookahead, kind_of_mark hu]
  refine Gives.after hpeek ?_
  refine Gives.after cur_gives (Gives.after (advance_gives rfl) (Gives.after (advance_gives rfl) ?_))
  refine hs.lastStmt h (by omega) hk fun x' hx => .pure ?_
  rw [Stmt.unchecked, hx, cur_of rfl, text_of_ident ht]

theorem ReadsStmt.empty (hk : EndsEmpty k) : ReadsStmt k .emptyStmt [] := by
  refine ⟨fun n s mid rest hs hn hrest => ?_⟩
  obtain rfl : mid = rest := hs.nil
  have hne : k ≠ .ident ∧ k ≠ .intLit ∧ statementAt (routines n) k = pure .emptyStmt := by
    revert hk
    cases k <;> first | exact fun _ => ⟨by decide, by decide, rfl⟩ | exact fun h => absurd h (by decide)
  unfold Gives
  rw [parseStatement_at (hrest ▸ hne.1) (hrest ▸ hne.2.1), hrest, hne.2.2]
  exact ⟨_, rfl, rfl⟩

theorem ReadsStmt.of_expr {k : Tok} {x : Stmt} {L : List Lexeme} {e : ExprTree}
    (h : ∀ n s mid rest, Spelled (e.print 1 ++ L) (PState.after s mid) rest → mid.length < n+1 →
      (s.after rest).cur.kind = k → ∃ tail, Spelled (e.print 1) (s.after mid) tail ∧
        EndsExpr (s.after tail).cur.kind ∧ (s.after tail).cur.kind ≠ .colon ∧
        ∀ lhs : Expr, lhs.unchecked = e.reading → Gives (accept .assign >>= fun b =>
          if b = true then (routines n).parseExpr >>= fun v => rangeCheckActive >>= fun q =>
            pure (Stmt.assign lhs v q) else pure (.exprStmt lhs)) (s.after tail) (·.unchecked = x)
          (s.after rest)) : ReadsStmt k x (e.print 1 ++ L) := by
  refine ⟨fun n s mid rest hs hn hk => ?_⟩
  obtain ⟨tail, he, hends, hcolon, hrun⟩ := h n s mid rest hs hn hk
  obtain ⟨l, K, hl, hstart⟩ := e.starts 1
  have hkind : (s.after mid).cur.kind = l.kind := (hl ▸ he).kind
  obtain ⟨b, hb⟩ := parseStatement_simple (r := routines n) (hkind ▸ hstart)
    (lookahead_of_text he hends hcolon)
  unfold Gives
  rw [hb]
  exact Gives.bind (e.reads.expr.gives n { s.after mid with havePeek := b } tail he hn hends) hrun

theorem ReadsStmt.exprStmt (hk : EndsStmt k) : ReadsStmt k (.exprStmt e.reading) (e.print 1) := by
  rw [← List.append_nil (e.print 1)]
  refine .of_expr fun n s mid rest hs hn hrest => ⟨rest, ?_, ?_, ?_, fun e' he => ?_⟩
  · rw [List.append_nil] at hs
    exact hs
  · exact hrest ▸ hk.ends.1
  · exact hrest ▸ hk.ends.2.2.1
  · unfold Gives
    rw [bind_accept_no (hrest ▸ hk.ends.2.1)]
    exact ⟨.exprStmt e', rfl, by simp only [Stmt.unchecked, he]⟩

theorem ReadsStmt.assign (hk : EndsStmt k) :
    ReadsStmt k (.assign e.reading e'.reading false) (e.print 1 ++ .mark .assign :: e'.print 1) := by
  refine .of_expr fun n s mid rest hs hn hrest => ?_
  obtain ⟨tail, he, hs⟩ := hs.append
  have hkind : (s.after tail).cur.kind = .assign := hs.kind
  refine ⟨tail, he, by rw [hkind]; decide, by rw [hkind]; decide, fun target htarget => ?_⟩
  have hle := he.tail_le
  refine Spelled.acceptYes hs fun tail' hlt hs => ?_
  refine hs.lastExpr (by omega) (hrest ▸ hk.ends.1) fun value hvalue => ?_
  exact Gives.after rangeCheckActive_gives (.pure (by rw [Stmt.unchecked, htarget, hvalue]))

theorem isDirective_no {s : PState} {name : String} (h : s.cur.kind ≠ .ident) :
    isDirective name s = some (false, s) := by
  simp [isDirective, h]

theorem checkAny_yes {s : PState} {ts : List Tok} (h : s.cur.kind ∈ ts) :
    checkAny ts s = some (true, s) := by
  simp [checkAny, h]

theorem checkAny_no {s : PState} {ts : List Tok} (h : s.cur.kind ∉ ts) :
    checkAny ts s = some (false, s) := by
  simp [checkAny, h]

theorem skipRaiseAddress_none {r : Routines} {s : PState} (h : s.cur.kind ≠ .ident) :
    skipRaiseAddress r s = some ((), s) := by
  rw [skipRaiseAddress, bind_of (isDirective_no h)]
  rfl

theorem ReadsStmt.reraise (hk : EndsEmpty k) : ReadsStmt k (.raise none) [.mark .kwRaise] := by
  refine .of_mark (by decide) (by decide) fun hs hn hrest => ?_
  refine hs.expect fun tail hlt hs => ?_
  obtain rfl : tail = _ := hs.nil
  have hstop : k ∈ [Tok.semi, .kwEnd, .kwElse, .kwUntil] ∧ k ≠ .ident := by
    revert hk
    cases k <;> decide
  refine Gives.after (a := none) ?_ (Gives.after (skipRaiseAddress_none (hrest ▸ hstop.2)) (.pure rfl))
  rw [parseRaiseValue, bind_of (checkAny_yes (hrest ▸ hstop.1))]
  rfl

theorem ReadsStmt.raise (hk : EndsStmt k) :
    ReadsStmt k (.raise (some e.reading)) (.mark .kwRaise :: e.print 1) := by
  refine .of_mark (by decide) (by decide) fun hs hn hrest => ?_
  refine hs.expect fun tail hlt hs => ?_
  obtain ⟨l, L, hl, hstart⟩ := e.starts 1
  have hstop : l.kind ∉ [Tok.semi, .kwEnd, .kwElse, .kwUntil] := by
    revert hstart
    generalize l.kind = k
    cases k <;> decide
  have hkind := (hl ▸ hs).kind
  refine Gives.bind (Q := fun v => uncheckedOption v = some e.reading) ?_ fun v hv =>
    Gives.after (skipRaiseAddress_none (hrest ▸ hk.ends.2.2.2.2)) (.pure ?_)
  · refine Gives.after (checkAny_no (hkind ▸ hstop)) ?_
    refine hs.lastExpr (by omega) (hrest ▸ hk.ends.1) fun v hv => .pure ?_
    rw [uncheckedOption, hv]
  · rw [Stmt.unchecked, hv]

end
end Tp2cc
