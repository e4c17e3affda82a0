import Tp2cc.Parser.StmtReads

set_option autoImplicit false

namespace Tp2cc
open Machine Parsing

section
variable {n m : Nat} {s s' : PState} {mid rest : List SourceToken} {k : Tok} {x : Stmt}
  {xs acc : List Stmt} {stops : List Tok} {T U : List Lexeme}

def statementsFrom (stops : List Tok) (r : Routines) : Nat → List Stmt → P (List Stmt) :=
  loop (fun body => do
    if ← atEndOr stops then return .done body
    else do
      let body := body ++ [← r.parseStatement]
      if ← accept .semi then return .again body
      else return .done body)

theorem parseStatementsUntil_eq (stops : List Tok) (r : Routines) :
    parseStatementsUntil r stops = statementsFrom stops r r.fuel [] := rfl

theorem statementsFrom_done {r : Routines} (h : s.cur.kind ∈ stops) :
    statementsFrom stops r (m+1) acc s = some (acc, s) := by
  refine loop_last ?_
  rw [bind_of (atEndOr_yes h)]
  rfl

theorem statementsFrom_item {r : Routines} (heof : s.cur.kind ≠ .eof) (hstop : s.cur.kind ∉ stops)
    (hx : r.parseStatement s = some (x, s')) : statementsFrom stops r (m+1) acc s =
      if s'.cur.kind = .semi then statementsFrom stops r m (acc ++ [x]) (s'.after s'.toks.tail)
      else some (acc ++ [x], s') := by
  split
  · rename_i h
    obtain ⟨t, tail, hs⟩ := List.exists_cons_of_length_pos (toks_pos (s := s') (by simp [h]))
    refine loop_round ?_
    rw [bind_of (atEndOr_no heof hstop)]
    simp only [Bool.false_eq_true, if_false]
    rw [bind_of hx, bind_accept_yes hs (by rw [← cur_of hs, h]), hs]
    rfl
  · rename_i h
    refine loop_last ?_
    rw [bind_of (atEndOr_no heof hstop)]
    simp only [Bool.false_eq_true, if_false]
    rw [bind_of hx, bind_accept_no h]
    rfl

structure ReadsRest (k : Tok) (xs : List Stmt) (L : List Lexeme) : Prop where
  gives : ∀ n m acc s mid rest stops, k ∈ stops → (∀ t ∈ stops, StopsStmts t) →
    Spelled L (PState.after s mid) rest → mid.length < n → mid.length < m →
    (s.after rest).cur.kind = k →
    Gives (statementsFrom stops (routines n) m acc) (s.after mid)
      (fun ys => uncheckedStmts ys = uncheckedStmts acc ++ xs) (s.after rest)

theorem ReadsRest.stmts (h : ReadsRest k xs T) : ReadsStmts k xs T where
  gives n s mid rest stops hk hstops hs hn hrest := by
    have := h.gives n (n+1) [] s mid rest stops hk hstops hs hn (by omega) hrest
    rw [parseStatementsUntil_eq, routines_fuel]
    exact this

theorem ReadsRest.nil : ReadsRest k [] [] where
  gives n m acc s mid rest stops hk hstops hs hn hm hrest := by
    obtain rfl : mid = rest := hs.nil
    obtain ⟨m, rfl⟩ : ∃ m', m = m'+1 := ⟨m-1, by omega⟩
    exact ⟨acc, statementsFrom_done (hrest ▸ hk), by rw [List.append_nil]⟩

theorem uncheckedStmts_append (xs ys : List Stmt) :
    uncheckedStmts (xs ++ ys) = uncheckedStmts xs ++ uncheckedStmts ys := by
  simp only [uncheckedStmts_eq, List.map_append]

theorem ReadsStmt.item {t : StmtTree} {k : Tok} (h : ReadsStmt k x t.print) (m : Nat)
    (acc : List Stmt) (ht : ¬t.isEmpty ∨ k = .semi) (hstops : ∀ t ∈ stops, StopsStmts t)
    (hs : Spelled t.print (s.after mid) rest) (hn : mid.length < n)
    (hk : (s.after rest).cur.kind = k) (hkeof : k ≠ .eof) : ∃ x', x'.unchecked = x ∧
      statementsFrom stops (routines n) (m+1) acc (s.after mid) =
        if (s.after rest).cur.kind = .semi then
          statementsFrom stops (routines n) m (acc ++ [x']) (s.after rest.tail)
        else some (acc ++ [x'], s.after rest) := by
  obtain ⟨n, rfl⟩ : ∃ n', n = n'+1 := ⟨n-1, by omega⟩
  obtain ⟨x', hrun, hx'⟩ := h.gives n s mid rest hs hn hk
  have hkind : (s.after mid).cur.kind ≠ .eof ∧ ¬StopsStmts (s.after mid).cur.kind := by
    obtain hempty | ⟨l, L, hl, hstop⟩ := t.starts
    · obtain rfl : k = .semi := ht.resolve_left fun hne => hne hempty
      have hprint : t.print = [] := by
        cases t <;> first | rfl | cases hempty
      rw [hprint] at hs
      obtain rfl : mid = rest := hs.nil
      rw [hk]
      decide
    · rw [hl] at hs
      exact ⟨hs.not_eof, hs.kind ▸ hstop⟩
  refine ⟨x', hx', ?_⟩
  rw [statementsFrom_item hkind.1 (fun hmem => hkind.2 (hstops _ hmem)) hrun]
  rfl

theorem ReadsRest.last {t : StmtTree} (h : ReadsStmt k x t.print) (ht : ¬t.isEmpty)
    (hk : StopsStmts k) : ReadsRest k [x] t.print where
  gives n m acc s mid rest stops _ hstops hs hn hm hrest := by
    obtain ⟨m, rfl⟩ : ∃ m', m = m'+1 := ⟨m-1, by omega⟩
    have hne : k ≠ .eof ∧ k ≠ .semi := by
      revert hk
      cases k <;> decide
    obtain ⟨x', hx', hrun⟩ := h.item m acc (.inl ht) hstops hs hn hrest hne.1
    rw [if_neg (hrest ▸ hne.2)] at hrun
    refine ⟨acc ++ [x'], hrun, ?_⟩
    simp only [uncheckedStmts_append, uncheckedStmts, hx']

theorem ReadsRest.cons {t : StmtTree} (h : ReadsStmt .semi x t.print) (h' : ReadsRest k xs U) :
    ReadsRest k (x :: xs) (t.print ++ .mark .semi :: U) where
  gives n m acc s mid rest stops hk hstops hs hn hm hrest := by
    obtain ⟨m, rfl⟩ : ∃ m', m = m'+1 := ⟨m-1, by omega⟩
    obtain ⟨u, tail, hu, ht, hU⟩ := hs.middle
    have hkind : (s.after (u :: tail)).cur.kind = .semi := by rw [after_cur, kind_of_mark hu]
    obtain ⟨x', hx', hrun⟩ := h.item m acc (.inr rfl) hstops ht hn hkind (by decide)
    have hle := ht.tail_le
    rw [List.length_cons] at hle
    rw [if_pos hkind] at hrun
    obtain ⟨ys, hys, hxs⟩ := h'.gives n m (acc ++ [x']) s tail rest stops hk hstops hU (by omega)
      (by omega) hrest
    refine ⟨ys, hrun.trans hys, ?_⟩
    simp only [hxs, uncheckedStmts_append, uncheckedStmts, hx', List.append_assoc,
      List.singleton_append]

theorem withSemis_cons (L L' : List Lexeme) (Ls : List (List Lexeme)) :
    withSemis (L :: L' :: Ls) = L ++ .mark .semi :: withSemis (L' :: Ls) := by
  simp [withSemis, List.intercalate_cons_cons]

end

/-! The body of an `asm` statement. -/
section
variable {k : Tok}

theorem skipAsm_gives {code : List Lexeme} (hcode : code.all fun l => !endsAsm l) {r : Routines}
    {s : PState} {mid rest : List SourceToken} (hs : Spelled code (s.after mid) rest)
    (hm : mid.length < r.fuel) (hrest : (s.after rest).cur.kind = .kwEnd) :
    skipAsm r (s.after mid) = some ((), s.after rest) := by
  unfold skipAsm
  generalize r.fuel = m at hm
  induction code generalizing mid m with
  | nil =>
    obtain rfl : mid = rest := hs.nil
    obtain ⟨m, rfl⟩ : ∃ m', m = m'+1 := ⟨m-1, by omega⟩
    refine loop_last ?_
    rw [bind_of (atEndOr_no (by rw [hrest]; decide) List.not_mem_nil),
      if_neg Bool.false_ne_true, bind_of check_gives, hrest]
    rfl
  | cons l code ih =>
    rw [List.all_cons, Bool.and_eq_true] at hcode
    have heof := hs.not_eof
    have hkind := hs.kind
    obtain ⟨t, tail, rfl, ht, hs, hlt⟩ := hs.step
    obtain ⟨m, rfl⟩ : ∃ m', m = m'+1 := ⟨m-1, by omega⟩
    refine Eq.trans ?_ (ih hcode.2 hs m (by omega))
    refine loop_round ?_
    have hl : l.kind ≠ .kwAsm ∧ l.kind ≠ .kwEnd := by
      simpa [endsAsm] using hcode.1
    rw [bind_of (atEndOr_no heof List.not_mem_nil), if_neg Bool.false_ne_true,
      bind_of check_gives, hkind, decide_eq_false hl.2, if_neg Bool.false_ne_true,
      bind_of check_gives, hkind, decide_eq_false hl.1, if_neg Bool.false_ne_true,
      bind_of (advance_gives rfl)]
    rfl

theorem ReadsStmt.asmStmt {code : List Lexeme} (hcode : code.all fun l => !endsAsm l) :
    ReadsStmt k .asmStmt (.mark .kwAsm :: code ++ [.mark .kwEnd]) := by
  refine .of_mark (by decide) (by decide) fun hs hn hrest => ?_
  refine hs.expect fun tail hlt hs => ?_
  obtain ⟨tail', hbody, hs⟩ := hs.append
  refine Gives.after (skipAsm_gives hcode hbody (by rw [routines_fuel]; omega) hs.kind) ?_
  refine hs.expect fun tail'' hlt' hs => ?_
  cases hs.nil
  exact .pure rfl

end

/-! The arms of a `case` statement. -/
section

def EndsLabel (k : Tok) : Prop := EndsExpr k ∧ k ≠ .dotDot

instance (k : Tok) : Decidable (EndsLabel k) := inferInstanceAs (Decidable (_ ∧ _))

theorem parseCaseLabel_single (e : ExprTree) :
    Reads 0 EndsLabel parseCaseLabel (·.unchecked) e.reading (e.print 1) where
  opens := e.reads.expr.opens
  gives n s rest hs hn hk := by
    refine Gives.bind (inner_gives e.reads.expr hs hn hk.1) fun e he => ⟨e, ?_, he⟩
    rw [parseRangeEnd, bind_accept_no hk.2]
    rfl

theorem parseCaseLabel_range (lo hi : ExprTree) :
    Reads 0 EndsLabel parseCaseLabel (·.unchecked) (.range lo.reading hi.reading)
      (lo.print 1 ++ .mark .dotDot :: hi.print 1) where
  opens := by
    obtain ⟨l, L, hl, hopens⟩ := lo.reads.expr.opens
    exact ⟨l, L ++ .mark .dotDot :: hi.print 1, by rw [hl]; rfl, hopens⟩
  gives n s rest hs hn hk := by
    obtain ⟨t, tail, ht, hlo, hhi⟩ := hs.middle
    have hend : EndsExpr (s.after (t :: tail)).cur.kind := by
      rw [after_cur, kind_of_mark ht]
      decide
    have hlt := hlo.length
    simp only [List.length_cons] at hlt
    refine Gives.bind (inner_gives lo.reads.expr hlo hn hend) fun x hx => ?_
    obtain ⟨y, hrun, hy⟩ := inner_gives (n := n) hi.reads.expr hhi
      (by simp only [after_toks]; omega) hk.1
    refine ⟨.range x y, ?_, by simp only [Expr.unchecked, hx, hy]⟩
    rw [parseRangeEnd, bind_accept_yes rfl (kind_of_mark ht)]
    exact bind_of hrun

theorem ElementTrees.labels (elements : ElementTrees) :
    List.Forall₂ (Reads 0 EndsLabel parseCaseLabel (·.unchecked)) elements.readings
      elements.prints := by
  cases elements with
  | nil => exact .nil
  | single e rest => exact .cons (parseCaseLabel_single e) rest.labels
  | range lo hi rest => exact .cons (parseCaseLabel_range lo hi) rest.labels

def armsFrom (r : Routines) : Nat → List CaseArm → P (List CaseArm) :=
  loop (fun arms => do
    if ← atEndOr [.kwEnd, .kwElse, .kwOtherwise] then return .done arms
    else do
      let labels ← moreAfterCommas r (parseCaseLabel r) [← parseCaseLabel r]
      expect .colon "case arm"
      let arms := arms ++ [.mk labels (← r.parseStatement)]
      if ← accept .semi then return .again arms
      else return .done arms)

theorem parseCaseArms_eq (r : Routines) : parseCaseArms r = armsFrom r r.fuel [] := rfl

structure ReadsArms (xs : List CaseArm) (L : List Lexeme) : Prop where
  gives : ∀ n m acc s mid rest, Spelled L (PState.after s mid) rest → mid.length < n →
    mid.length < m → (s.after rest).cur.kind ∈ [Tok.kwEnd, .kwElse, .kwOtherwise] →
    Gives (armsFrom (routines n) m acc) (s.after mid)
      (fun ys => uncheckedArms ys = uncheckedArms acc ++ xs) (s.after rest)

theorem uncheckedArms_append (xs ys : List CaseArm) :
    uncheckedArms (xs ++ ys) = uncheckedArms xs ++ uncheckedArms ys := by
  simp only [uncheckedArms_eq, List.map_append]

theorem ReadsArms.nil : ReadsArms [] [] where
  gives n m acc s mid rest hs hn hm hrest := by
    obtain rfl : mid = rest := hs.nil
    obtain ⟨m, rfl⟩ : ∃ m', m = m'+1 := ⟨m-1, by omega⟩
    refine ⟨acc, loop_last ?_, by rw [List.append_nil]⟩
    rw [bind_of (atEndOr_yes hrest)]
    rfl

theorem ElementTrees.first {labels : ElementTrees} (h : ¬labels.isNil) : ∃ e es l L Ls,
    labels.readings = e :: es ∧ labels.prints = (l :: L) :: Ls ∧ StartsExpr l.kind ∧
      List.Forall₂ (Reads 0 EndsLabel parseCaseLabel (·.unchecked)) (e :: es) ((l :: L) :: Ls) := by
  have hreads := labels.labels
  cases labels with
  | nil => exact absurd rfl h
  | single e rest =>
    obtain ⟨l, L, hl, hstart⟩ := e.starts 1
    simp only [ElementTrees.readings, ElementTrees.prints, hl] at hreads ⊢
    exact ⟨_, _, _, _, _, rfl, rfl, hstart, hreads⟩
  | range lo hi rest =>
    obtain ⟨l, L, hl, hstart⟩ := lo.starts 1
    simp only [ElementTrees.readings, ElementTrees.prints, hl] at hreads ⊢
    exact ⟨_, _, _, _, _, rfl, rfl, hstart, hreads⟩

theorem ReadsArms.cons {labels : ElementTrees} {x : Stmt} {xs : List CaseArm} {T U : List Lexeme}
    (hlabels : ¬labels.isNil) (h : ReadsStmt .semi x T) (h' : ReadsArms xs U) :
    ReadsArms (.mk labels.readings x :: xs)
      (withCommas labels.prints ++ .mark .colon :: (T ++ .mark .semi :: U)) where
  gives n m acc s mid rest hs hn hm hrest := by
    obtain ⟨m, rfl⟩ : ∃ m', m = m'+1 := ⟨m-1, by omega⟩
    obtain ⟨e, es, l, L, Ls, hreadings, hprints, hstart, hlist⟩ := ElementTrees.first hlabels
    rw [hprints, show withCommas ((l :: L) :: Ls) ++ .mark .colon :: (T ++ .mark .semi :: U) =
      (withCommas ((l :: L) :: Ls) ++ .mark .colon :: (T ++ [.mark .semi])) ++ U by simp] at hs
    obtain ⟨tail, harm, hs⟩ := hs.append
    rw [hreadings]
    have hcur : (s.after mid).cur.kind = l.kind ∧ (s.after mid).cur.kind ≠ .eof := by
      rw [withCommas_cons, List.cons_append, List.cons_append] at harm
      exact ⟨harm.kind, harm.not_eof⟩
    have hstop : l.kind ∉ [Tok.kwEnd, .kwElse, .kwOtherwise] := by
      revert hstart
      generalize l.kind = k
      cases k <;> decide
    have hlt : tail.length < mid.length := by
      have := harm.length
      simp only [after_toks, List.length_append, List.length_cons] at this
      omega
    cases hlist with
    | cons hfirst hothers =>
      refine Gives.round (s.after tail)
        (fun ys => uncheckedArms ys = uncheckedArms acc ++ [.mk (e :: es) x]) ?_ fun ys hys => ?_
      · refine Gives.after (atEndOr_no hcur.2 (hcur.1 ▸ hstop)) ?_
        refine harm.items hfirst hothers (by decide) (by decide) (by decide) hn
          fun tail₁ zs hle hs hzs => ?_
        refine hs.expect fun tail₂ hlt hs => ?_
        refine hs.stmt h (by omega) fun tail₃ x' hle' hs hx => ?_
        refine hs.acceptYes fun tail₄ hlt' hs => ?_
        obtain rfl : tail₄ = tail := hs.nil
        refine .pure ⟨_, rfl, ?_⟩
        simp only [uncheckedArms_append, uncheckedArms, CaseArm.unchecked, uncheckedList_eq, hzs, hx]
      · obtain ⟨zs, hzs, hall⟩ := h'.gives n m ys s tail rest hs (by omega) (by omega) hrest
        exact ⟨zs, hzs, by simp [hall, hys]⟩

theorem parseCaseArms_gives {n : Nat} {s : PState} {mid rest : List SourceToken}
    {xs : List CaseArm} {L : List Lexeme} (h : ReadsArms xs L) (hs : Spelled L (s.after mid) rest)
    (hn : mid.length < n) (hk : (s.after rest).cur.kind ∈ [Tok.kwEnd, .kwElse, .kwOtherwise]) :
    Gives (parseCaseArms (routines n)) (s.after mid) (fun ys => uncheckedArms ys = xs)
      (s.after rest) := by
  rw [parseCaseArms_eq, routines_fuel]
  exact h.gives n (n+1) [] s mid rest hs hn (by omega) hk

theorem parseStatementBlockUntil_gives {n : Nat} {s : PState} {mid rest : List SourceToken}
    {xs : List Stmt} {L : List Lexeme} (h : ReadsStmts .kwEnd xs L)
    (hs : Spelled L (s.after mid) rest) (hn : mid.length < n)
    (hk : (s.after rest).cur.kind = .kwEnd) :
    Gives (do return some (← parseStatementBlockUntil (routines n) [.kwEnd])) (s.after mid)
      (fun b => uncheckedBranch b = some (.compound xs)) (s.after rest) := by
  obtain ⟨ys, hrun, hys⟩ := h.gives n s mid rest [.kwEnd] (by decide) (by decide) hs hn hk
  refine ⟨some (.compound ys), ?_, by simp only [unchecked_block, hys]⟩
  simp only [parseStatementBlockUntil, bind_assoc]
  exact bind_of hrun

theorem parseCaseElse_none {r : Routines} {s : PState} (hk : s.cur.kind = .kwEnd) :
    parseCaseElse r s = some (none, s) := by
  refine (bind_accept_no ?_).trans ((bind_accept_no ?_).trans rfl)
  · rw [hk]
    decide
  · rw [hk]
    decide

section
variable {k : Tok} {arms : List CaseArm} {xs : List Stmt} {T U : List Lexeme} {e : ExprTree}

theorem parseCaseElse_gives {n : Nat} {s : PState} {mid rest : List SourceToken} {otherwise : Bool}
    (h : ReadsStmts .kwEnd xs T) (hs : Spelled (.mark (otherwiseTok otherwise) :: T) (s.after mid) rest)
    (hn : mid.length < n) (hk : (s.after rest).cur.kind = .kwEnd) :
    Gives (parseCaseElse (routines n)) (s.after mid)
      (fun b => uncheckedBranch b = some (.compound xs)) (s.after rest) := by
  cases otherwise with
  | false =>
    refine Spelled.acceptYes hs fun tail hlt hs => ?_
    exact parseStatementBlockUntil_gives h hs (by omega) hk
  | true =>
    refine Spelled.acceptNo hs (by decide) (Spelled.acceptYes hs fun tail hlt hs => ?_)
    exact parseStatementBlockUntil_gives h hs (by omega) hk

theorem ReadsStmt.caseOf (h : ReadsArms arms T) :
    ReadsStmt k (.caseStmt e.reading arms none)
      (.mark .kwCase :: e.print 1 ++ .mark .kwOf :: (T ++ [.mark .kwEnd])) := by
  refine .of_mark (by decide) (by decide) fun hs hn hrest => ?_
  refine hs.expect fun tail hlt hs => ?_
  refine hs.expr (by omega) (by decide) fun tail' selector hle hs hselector => ?_
  refine hs.expect fun tail'' hlt' hs => ?_
  obtain ⟨tail₃, hle', harms, hs⟩ := hs.split
  have hkind : (PState.after _ tail₃).cur.kind = .kwEnd := hs.kind
  refine Gives.bind (parseCaseArms_gives h harms (by omega) (by rw [hkind]; decide)) fun as has => ?_
  refine Gives.after (parseCaseElse_none hkind) ?_
  refine hs.expect fun tail₄ hlt₃ hs => ?_
  cases hs.nil
  exact .pure (by rw [Stmt.unchecked, hselector, has, uncheckedBranch])

theorem ReadsStmt.caseElse {otherwise : Bool} (h : ReadsArms arms T)
    (h' : ReadsStmts .kwEnd xs U) :
    ReadsStmt k (.caseStmt e.reading arms (some (.compound xs)))
      (.mark .kwCase :: e.print 1 ++ .mark .kwOf ::
        (T ++ .mark (otherwiseTok otherwise) :: (U ++ [.mark .kwEnd]))) := by
  refine .of_mark (by decide) (by decide) fun hs hn hrest => ?_
  refine hs.expect fun tail hlt hs => ?_
  refine hs.expr (by omega) (by decide) fun tail' selector hle hs hselector => ?_
  refine hs.expect fun tail'' hlt' hs => ?_
  obtain ⟨tail₃, hle', harms, hs⟩ := hs.split
  have hkind : (PState.after _ tail₃).cur.kind = otherwiseTok otherwise := hs.kind
  refine Gives.bind (parseCaseArms_gives h harms (by omega) ?_) fun as has => ?_
  · rw [hkind]
    cases otherwise <;> decide
  · obtain ⟨tail₄, hle'', helse, hs⟩ := Spelled.split (T := .mark (otherwiseTok otherwise) :: U) hs
    refine Gives.bind (parseCaseElse_gives h' helse (by omega) hs.kind) fun b hb => ?_
    refine hs.expect fun tail₅ hlt₃ hs => ?_
    cases hs.nil
    exact .pure (by rw [Stmt.unchecked, hselector, has, hb])

end
end

/-! The handlers of a `try` statement, and its other parts. -/
section

theorem isDirective_yes {s : PState} {name : String} {L : List Lexeme} {rest : List SourceToken}
    (hs : Spelled (.ident name :: L) s rest) : isDirective name s = some (true, s) := by
  obtain ⟨t, tail, htoks, ht, -⟩ := hs.cons
  simp [isDirective, cur_of htoks, kind_of_ident ht, text_of_ident ht]

theorem isDirective_other {s : PState} {name : String} {l : Lexeme} {L : List Lexeme}
    {rest : List SourceToken} (hs : Spelled (l :: L) s rest) (hl : l ≠ .ident name) :
    isDirective name s = some (false, s) := by
  obtain ⟨t, tail, htoks, rfl, -⟩ := hs.cons
  have hno : ¬(t.1.kind = .ident ∧ t.1.text = name) := by
    intro h
    exact hl (by simp [Token.lexeme, h.1, h.2])
  simp [isDirective, cur_of htoks, hno]

theorem parseHandlerHeader_gives {s : PState} {mid rest : List SourceToken} {var : Option String}
    {className : String} (hs : Spelled (handlerHeader var className) (s.after mid) rest)
    (hk : (s.after rest).cur.kind ≠ .colon) :
    parseHandlerHeader (s.after mid) = some ((var.getD "", className), s.after rest) := by
  cases var with
  | none =>
    obtain ⟨t, tail, rfl, ht, hs, -⟩ := Spelled.step hs
    obtain rfl : tail = rest := hs.nil
    rw [parseHandlerHeader, bind_of (consumeIdent_gives rfl (kind_of_ident ht))]
    refine (bind_accept_no hk).trans ?_
    rw [text_of_ident ht]
    rfl
  | some v =>
    obtain ⟨t, tail, rfl, ht, hs, -⟩ := Spelled.step hs
    obtain ⟨u, tail, rfl, hu, hs, -⟩ := hs.step
    obtain ⟨w, tail, rfl, hw, hs, -⟩ := hs.step
    obtain rfl : tail = rest := hs.nil
    rw [parseHandlerHeader, bind_of (consumeIdent_gives rfl (kind_of_ident ht))]
    refine (bind_accept_yes rfl (kind_of_mark hu)).trans ?_
    rw [bind_of (consumeIdent_gives rfl (kind_of_ident hw)), text_of_ident ht, text_of_ident hw]
    rfl

def handlersFrom (r : Routines) : Nat → List ExceptHandler → P (List ExceptHandler) :=
  loop (fun handlers => do
    if ← isDirective "on" then do
      advance
      let header ← parseHandlerHeader
      expect .kwDo "exception handler"
      let body ← r.parseStatement
      let _ ← accept .semi
      return .again (handlers ++ [.mk header.1 header.2 body])
    else return .done handlers)

theorem parseHandlers_eq (r : Routines) : parseHandlers r = handlersFrom r r.fuel [] := rfl

structure ReadsHandlers (xs : List ExceptHandler) (L : List Lexeme) : Prop where
  gives : ∀ n m acc s mid rest, Spelled L (PState.after s mid) rest → mid.length < n →
    mid.length < m → (s.after rest).cur.kind ≠ .ident →
    Gives (handlersFrom (routines n) m acc) (s.after mid)
      (fun ys => uncheckedHandlers ys = uncheckedHandlers acc ++ xs) (s.after rest)

theorem uncheckedHandlers_append (xs ys : List ExceptHandler) :
    uncheckedHandlers (xs ++ ys) = uncheckedHandlers xs ++ uncheckedHandlers ys := by
  simp only [uncheckedHandlers_eq, List.map_append]

theorem ReadsHandlers.nil : ReadsHandlers [] [] where
  gives n m acc s mid rest hs hn hm hrest := by
    obtain rfl : mid = rest := hs.nil
    obtain ⟨m, rfl⟩ : ∃ m', m = m'+1 := ⟨m-1, by omega⟩
    refine ⟨acc, loop_last ?_, by rw [List.append_nil]⟩
    rw [bind_of (isDirective_no hrest)]
    rfl

theorem ReadsHandlers.cons {var : Option String} {className : String} {x : Stmt}
    {xs : List ExceptHandler} {T U : List Lexeme} (h : ReadsStmt .semi x T)
    (h' : ReadsHandlers xs U) :
    ReadsHandlers (.mk (var.getD "") className x :: xs)
      (.ident "on" :: handlerHeader var className ++ .mark .kwDo :: (T ++ .mark .semi :: U)) where
  gives n m acc s mid rest hs hn hm hrest := by
    obtain ⟨m, rfl⟩ : ∃ m', m = m'+1 := ⟨m-1, by omega⟩
    rw [show .ident "on" :: handlerHeader var className ++ .mark .kwDo :: (T ++ .mark .semi :: U) =
      (.ident "on" :: handlerHeader var className ++ .mark .kwDo :: (T ++ [.mark .semi])) ++ U
      by simp] at hs
    obtain ⟨tail, -, hhandler, hs⟩ := hs.split
    have hlt : tail.length < mid.length := by
      have := hhandler.length
      simp only [after_toks, List.length_append, List.length_cons] at this
      omega
    refine Gives.round (s.after tail) (fun ys => uncheckedHandlers ys =
      uncheckedHandlers acc ++ [.mk (var.getD "") className x]) ?_ fun ys hys => ?_
    · refine Gives.after (isDirective_yes hhandler) ?_
      obtain ⟨t, tail₁, rfl, ht, hhandler, hlt₁⟩ := Spelled.step hhandler
      refine Gives.after (advance_gives rfl) ?_
      obtain ⟨tail₂, hle₂, hheader, hhandler⟩ := hhandler.split
      have hdo : (s.after tail₂).cur.kind = .kwDo := hhandler.kind
      refine Gives.after (parseHandlerHeader_gives hheader (by rw [after_after, hdo]; decide)) ?_
      refine hhandler.expect fun tail₃ hlt₃ hhandler => ?_
      refine hhandler.stmt h (by omega) fun tail₄ x' hle₄ hhandler hx => ?_
      obtain ⟨u, tail₅, rfl, hu, hhandler, -⟩ := hhandler.step
      obtain rfl : tail₅ = tail := hhandler.nil
      refine Gives.after (accept_yes rfl (kind_of_mark hu)) (.pure ⟨_, rfl, ?_⟩)
      simp only [uncheckedHandlers_append, uncheckedHandlers, ExceptHandler.unchecked, hx]
    · obtain ⟨zs, hzs, hall⟩ := h'.gives n m ys s tail rest hs (by omega) (by omega) hrest
      exact ⟨zs, hzs, by simp [hall, hys]⟩

theorem parseHandlers_gives {n : Nat} {s : PState} {mid rest : List SourceToken}
    {xs : List ExceptHandler} {L : List Lexeme} (h : ReadsHandlers xs L)
    (hs : Spelled L (s.after mid) rest) (hn : mid.length < n)
    (hk : (s.after rest).cur.kind ≠ .ident) :
    Gives (parseHandlers (routines n)) (s.after mid) (fun ys => uncheckedHandlers ys = xs)
      (s.after rest) := by
  rw [parseHandlers_eq, routines_fuel]
  exact h.gives n (n+1) [] s mid rest hs hn (by omega) hk

section
variable {k : Tok} {handlers : List ExceptHandler} {xs ys : List Stmt} {S T U : List Lexeme}

theorem ReadsStmt.tryFinally (h : ReadsStmts .kwFinally xs S) (h' : ReadsStmts .kwEnd ys T) :
    ReadsStmt k (.tryStmt xs true [] none ys)
      (.mark .kwTry :: S ++ .mark .kwFinally :: (T ++ [.mark .kwEnd])) := by
  refine .of_mark (by decide) (by decide) fun hs hn hrest => ?_
  refine hs.expect fun tail hlt hs => ?_
  refine hs.stmts h (by decide) (by decide) (by omega) fun tail' xs' hle hs hxs => ?_
  refine hs.acceptYes fun tail'' hlt' hs => ?_
  refine hs.stmts h' (by decide) (by decide) (by omega) fun tail₃ ys' hle' hs hys => ?_
  refine hs.expect fun tail₄ _ hs => ?_
  cases hs.nil
  exact .pure (by simp only [Stmt.unchecked, hxs, hys, uncheckedHandlers, uncheckedBranch])

theorem ReadsStmt.of_except {x : Stmt} (h : ReadsStmts .kwExcept xs S)
    (hrest : ∀ n s mid rest xs', uncheckedStmts xs' = xs → Spelled T (PState.after s mid) rest →
      mid.length < n → Gives (isDirective "on" >>= fun b => if b = true then do
          let handlers ← parseHandlers (routines n)
          let exceptElse ← parseExceptElse (routines n)
          expect .kwEnd "try"
          return Stmt.tryStmt xs' false handlers exceptElse []
        else do
          let exceptElse ← parseStatementBlockUntil (routines n) [.kwEnd]
          expect .kwEnd "try"
          return Stmt.tryStmt xs' false [] (some exceptElse) []) (s.after mid) (·.unchecked = x)
        (s.after rest)) :
    ReadsStmt k x (.mark .kwTry :: S ++ .mark .kwExcept :: T) := by
  refine .of_mark (by decide) (by decide) fun hs hn _ => ?_
  refine hs.expect fun tail hlt hs => ?_
  refine hs.stmts h (by decide) (by decide) (by omega) fun tail' xs' hle hs hxs => ?_
  refine hs.acceptNo (by decide) (hs.acceptYes fun tail'' hlt' hs => ?_)
  exact hrest _ _ tail'' _ xs' hxs hs (by omega)

theorem ReadsStmt.tryExcept (h : ReadsStmts .kwExcept xs S) (h' : ReadsStmts .kwEnd ys T)
    (hon : T.head? ≠ some (.ident "on")) :
    ReadsStmt k (.tryStmt xs false [] (some (.compound ys)) [])
      (.mark .kwTry :: S ++ .mark .kwExcept :: (T ++ [.mark .kwEnd])) := by
  refine .of_except h fun n s mid rest xs' hxs hs hn => ?_
  have hno : isDirective "on" (s.after mid) = some (false, s.after mid) := by
    cases T with
    | nil => exact isDirective_other hs (by decide)
    | cons l L =>
      refine isDirective_other hs ?_
      rintro rfl
      exact hon rfl
  refine Gives.after hno ?_
  simp only [Bool.false_eq_true, if_false, parseStatementBlockUntil, bind_assoc]
  refine hs.stmts h' (by decide) (by decide) hn fun tail ys' hle hs hys => ?_
  refine hs.expect fun tail' _ hs => ?_
  cases hs.nil
  exact .pure (by simp only [Stmt.unchecked, hxs, hys, uncheckedHandlers, unchecked_block,
    uncheckedStmts])

theorem ReadsStmt.tryOn (h : ReadsStmts .kwExcept xs S) (h' : ReadsHandlers handlers T)
    (hon : ∃ L, T = .ident "on" :: L) :
    ReadsStmt k (.tryStmt xs false handlers none [])
      (.mark .kwTry :: S ++ .mark .kwExcept :: (T ++ [.mark .kwEnd])) := by
  refine .of_except h fun n s mid rest xs' hxs hs hn => ?_
  obtain ⟨L, rfl⟩ := hon
  refine Gives.after (isDirective_yes hs) ?_
  obtain ⟨tail, hle, hhandlers, hs⟩ := Spelled.split (T := .ident "on" :: L) hs
  have hend : (s.after tail).cur.kind = .kwEnd := hs.kind
  refine Gives.bind (parseHandlers_gives h' hhandlers hn (by rw [hend]; decide)) fun as has => ?_
  refine Gives.after (a := none) ((bind_accept_no (by rw [hend]; decide)).trans rfl) ?_
  refine hs.expect fun tail' _ hs => ?_
  cases hs.nil
  exact .pure (by simp only [Stmt.unchecked, hxs, has, uncheckedBranch, uncheckedStmts])

theorem ReadsStmt.tryOnElse (h : ReadsStmts .kwExcept xs S) (h' : ReadsHandlers handlers T)
    (hon : ∃ L, T = .ident "on" :: L) (h'' : ReadsStmts .kwEnd ys U) :
    ReadsStmt k (.tryStmt xs false handlers (some (.compound ys)) [])
      (.mark .kwTry :: S ++ .mark .kwExcept :: (T ++ .mark .kwElse :: (U ++ [.mark .kwEnd]))) := by
  refine .of_except h fun n s mid rest xs' hxs hs hn => ?_
  obtain ⟨L, rfl⟩ := hon
  refine Gives.after (isDirective_yes hs) ?_
  obtain ⟨tail, hle, hhandlers, hs⟩ := Spelled.split (T := .ident "on" :: L) hs
  have helse : (s.after tail).cur.kind = .kwElse := hs.kind
  refine Gives.bind (parseHandlers_gives h' hhandlers hn (by rw [helse]; decide)) fun as has => ?_
  obtain ⟨tail', hle', hbody, hs⟩ := Spelled.split (T := .mark .kwElse :: U) hs
  have hblock : Gives (parseExceptElse (routines n)) (s.after tail)
      (fun b => uncheckedBranch b = some (.compound ys)) (s.after tail') := by
    refine Spelled.acceptYes hbody fun tail'' hlt hbody => ?_
    exact parseStatementBlockUntil_gives h'' hbody (by omega) hs.kind
  refine Gives.bind hblock fun b hb => hs.expect fun tail'' _ hs => ?_
  cases hs.nil
  exact .pure (by simp only [Stmt.unchecked, hxs, has, hb, uncheckedStmts])

end
end
end Tp2cc
